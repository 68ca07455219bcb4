import Mathlib.Data.List.Nodup
import Mathlib.Logic.Relation
import Termwise.Options

/-!
# Scoped options under any interleaving

Threads take guards, set options through them, give them back and read, in any order. A session
keeps beside the overrides what only the threads themselves have, the guards that are still held,
and the history of the steps so far. What a guard set last is read off the history; that the
overrides show exactly this, for the guards still held, is the invariant.

An override has a *reach*: the whole process or one thread. The three changing operations are
described once for all reaches, by what they do to the override of each reach and to the guard that
each thread holds; the invariant is kept by these descriptions alone.

## Main definitions

* `Guard`, `Guard.reach`: a guard as its holder has it, and where its override is seen
* `Session`, `Session.Step`: the steps of the threads, with the history
* `latest`, `Session.valueAt`: what the guards still held set last
* `Session.Orderly`: all that a session promises

## Main results

* `Session.Step.kept`: one step keeps guards and overrides together
* `orderly_of_reached`: every reached session is orderly
-/

namespace Termwise

variable {Thread : Type}

/-- **A guard** as its holder has it. No two guards have the same serial number. -/
structure Guard (Thread : Type) where
  thread : Thread
  scope : Scope
  serial : Nat
deriving DecidableEq

/-- **Where the override of a guard is seen**: in one thread, or in all of them. -/
def Guard.reach (g : Guard Thread) : Option Thread :=
  match g.scope with
  | .global => none
  | .thread => some g.thread

theorem Guard.reach_eq_none {g : Guard Thread} : g.reach = none ↔ g.scope = .global := by
  rw [Guard.reach]
  split <;> simp [*]

theorem Guard.reach_eq_some {g : Guard Thread} {t : Thread} :
    g.reach = some t ↔ g.thread = t ∧ g.scope = .thread := by
  rw [Guard.reach]
  split <;> simp [*]

/-- A step that was taken. -/
inductive OptionEvent (Thread : Type) where
  | locked (guard : Guard Thread) (entries : Entries)
  | refused (thread : Thread) (scope : Scope) (error : LockError)
  | set (guard : Guard Thread) (key : OptionKey) (value : String)
  | dropped (guard : Guard Thread)
  | read (thread : Thread) (key : OptionKey) (value : String)

/-- The guard that a step is about. -/
def OptionEvent.guard? : OptionEvent Thread → Option (Guard Thread)
  | .locked g _ | .set g _ _ | .dropped g => some g
  | .refused .. | .read .. => none

theorem Entries.get?_insert (entries : Entries) (key key' : OptionKey) (value : String) :
    (entries.insert key value).get? key' =
      if key' = key then some value else entries.get? key' := by
  by_cases heq : key' = key
  · subst heq
    simp [Entries.get?, Entries.insert]
  · have hpassed : (key == key') = false := by simpa using fun h => heq h.symm
    rw [if_neg heq, Entries.get?, Entries.insert, List.find?_cons_of_neg (by simp [hpassed]),
      List.find?_filter]
    congr 2
    funext entry
    by_cases hentry : entry.1 = key'
    · simp [hentry, heq]
    · simp [hentry]

namespace OptionStore

variable {store store' : OptionStore Thread} {t : Thread}

/-- The override of a reach. -/
def override (store : OptionStore Thread) : Option Thread → Option Entries
  | none => store.global
  | some t => (store.slot t).entries

/-- The guard that a thread holds, by its scope. -/
def held (store : OptionStore Thread) (t : Thread) : Option Scope := (store.slot t).held

theorem get_eq (store : OptionStore Thread) (t : Thread) (key : OptionKey) :
    store.get t key = (((store.override (some t)).bind (·.get? key)).or
      ((store.override none).bind (·.get? key))).getD key.defaultValue := by
  rw [get, override, override]
  cases (store.slot t).entries.bind (·.get? key) <;>
    cases store.global.bind (·.get? key) <;> rfl

/-- A reader goes by its own override and by that of the process. -/
theorem get_congr (hown : store'.override (some t) = store.override (some t))
    (hglobal : store'.override none = store.override none) (key : OptionKey) :
    store'.get t key = store.get t key := by
  rw [get_eq, get_eq, hown, hglobal]

variable [DecidableEq Thread]

/-- A guard is refused to a thread that holds one, and that of the process while it is taken. -/
theorem lock_eq_error_iff (store : OptionStore Thread) (t : Thread) (scope : Scope)
    (entries : Entries) : (∃ e, (store.lock t scope entries).1 = .error e) ↔
      store.held t ≠ none ∨ (scope = .global ∧ store.override none ≠ none) := by
  simp only [held, override]
  rcases hheld : (store.slot t).held with _ | own
  · cases scope
    · rcases htaken : store.global with _ | taken <;> simp [lock, hheld, htaken]
    · simp [lock, hheld]
  · simp [lock, hheld]

/-- **A refused guard** leaves everything as it is. -/
theorem of_lock_error {scope : Scope} {entries : Entries} {e : LockError}
    (h : store.lock t scope entries = (.error e, store')) : store' = store := by
  simp only [lock] at h
  split at h
  · exact (Prod.mk.inj h).2.symm
  · cases (Prod.mk.inj h).1
  · split at h
    · exact (Prod.mk.inj h).2.symm
    · cases (Prod.mk.inj h).1

/-- **Taking a guard** brings its override about and is noted by its thread. -/
theorem of_lock {g : Guard Thread} {scope : Scope} {entries : Entries}
    (h : store.lock g.thread scope entries = (.ok g.scope, store')) :
    store.held g.thread = none ∧ (g.reach = none → store.override none = none) ∧
      (∀ t, store'.held t = if t = g.thread then some g.scope else store.held t) ∧
      ∀ r, store'.override r = if r = g.reach then some entries else store.override r := by
  obtain ⟨t, granted, serial⟩ := g
  simp only [lock] at h
  split at h
  · cases h
  · rename_i hheld
    cases h
    refine ⟨hheld, nofun, fun t' => ?_, fun r => ?_⟩
    · simp only [held, setSlot]
      split <;> rfl
    · rcases r with _ | t'
      · rfl
      · by_cases heq : t' = t <;> simp [override, setSlot, Guard.reach, heq]
  · rename_i hheld
    split at h
    · cases h
    · rename_i hfree
      cases h
      refine ⟨hheld, fun _ => Option.not_isSome_iff_eq_none.1 hfree, fun t' => ?_, fun r => ?_⟩
      · simp only [held, setSlot]
        split <;> rfl
      · rcases r with _ | t'
        · rfl
        · by_cases heq : t' = t <;> simp [override, setSlot, Guard.reach, heq]

/-- **Setting an option** changes the override of the guard. -/
theorem override_set (store : OptionStore Thread) (g : Guard Thread) (key : OptionKey)
    (value : String) (r : Option Thread) : (store.set g.thread g.scope key value).override r =
      if r = g.reach then some (((store.override r).getD []).insert key value)
      else store.override r := by
  obtain ⟨t, scope, serial⟩ := g
  rcases r with _ | t' <;> cases scope <;> simp only [set, override, Guard.reach, setSlot]
  · rfl
  · rfl
  · rfl
  · by_cases heq : t' = t <;> simp [heq]

theorem held_set (store : OptionStore Thread) (g : Guard Thread) (t : Thread) (key : OptionKey)
    (value : String) : (store.set g.thread g.scope key value).held t = store.held t := by
  obtain ⟨t', scope, serial⟩ := g
  cases scope with
  | global => rfl
  | thread =>
    simp only [held, set, setSlot]
    split <;> simp_all

/-- **Giving a guard back** takes its override away, and leaves its thread without one. -/
theorem held_release (store : OptionStore Thread) (g : Guard Thread) (t : Thread) :
    (store.release g.thread g.scope).held t = if t = g.thread then none else store.held t := by
  cases g.scope <;> simp only [held, release, setSlot] <;> split <;> rfl

theorem override_release (store : OptionStore Thread) (g : Guard Thread) (r : Option Thread) :
    (store.release g.thread g.scope).override r =
      if r = g.reach then none else store.override r := by
  obtain ⟨t, scope, serial⟩ := g
  rcases r with _ | t' <;> cases scope <;> simp only [release, override, Guard.reach, setSlot]
  · rfl
  · rfl
  · by_cases heq : t' = t <;> simp [heq]
  · by_cases heq : t' = t <;> simp [heq]

end OptionStore

/-! ## Histories -/

section
variable [DecidableEq Thread]

/-- **What a guard set last** for an option, in a history whose newest step comes first. A guard
starts with the values that it was taken with. -/
def latest (g : Guard Thread) (key : OptionKey) : List (OptionEvent Thread) → Option String
  | [] => none
  | .locked g' entries :: past => if g' = g then entries.get? key else latest g key past
  | .set g' key' value :: past => if g' = g ∧ key' = key then some value else latest g key past
  | .refused .. :: past | .dropped _ :: past | .read .. :: past => latest g key past

/-- The overrides, the guards that are held, and the steps so far with the newest first. -/
structure Session (Thread : Type) where
  store : OptionStore Thread
  guards : List (Guard Thread)
  past : List (OptionEvent Thread)

namespace Session

/-- No step was taken. -/
def new : Session Thread := ⟨.new, [], []⟩

/-- **One step of some thread.** Only a guard that is held can be used, and its thread uses it. -/
inductive Step : Session Thread → OptionEvent Thread → Session Thread → Prop where
  | lock {s : Session Thread} {store : OptionStore Thread} (g : Guard Thread) (scope : Scope)
    (entries : Entries) (hserial : g.serial = s.past.length)
    (hlock : s.store.lock g.thread scope entries = (.ok g.scope, store)) :
    Step s (.locked g entries) ⟨store, g :: s.guards, .locked g entries :: s.past⟩
  | refuse {s : Session Thread} {store : OptionStore Thread} {t : Thread} {scope : Scope}
    {entries : Entries} {e : LockError}
    (hlock : s.store.lock t scope entries = (.error e, store)) :
    Step s (.refused t scope e) ⟨store, s.guards, .refused t scope e :: s.past⟩
  | set {s : Session Thread} {g : Guard Thread} (hg : g ∈ s.guards) (key : OptionKey)
    (value : String) :
    Step s (.set g key value)
      ⟨s.store.set g.thread g.scope key value, s.guards, .set g key value :: s.past⟩
  | drop {s : Session Thread} {g : Guard Thread} (hg : g ∈ s.guards) :
    Step s (.dropped g)
      ⟨s.store.release g.thread g.scope, s.guards.erase g, .dropped g :: s.past⟩
  | read {s : Session Thread} (t : Thread) (key : OptionKey) :
    Step s (.read t key (s.store.get t key))
      ⟨s.store, s.guards, .read t key (s.store.get t key) :: s.past⟩

/-- Some thread takes a step. -/
def Next (s s' : Session Thread) : Prop := ∃ e, Step s e s'

/-- A session that the threads bring about. -/
def Reached (s : Session Thread) : Prop := Relation.ReflTransGen Next new s

/-- What the guard of a reach set last, if one is held. -/
def valueAt (s : Session Thread) (r : Option Thread) (key : OptionKey) : Option String :=
  (s.guards.find? fun g => g.reach = r).bind fun g => latest g key s.past

/-- **What a session promises.** -/
structure Orderly (s : Session Thread) : Prop where
  /-- Guards are told apart. -/
  nodup : s.guards.Nodup
  /-- At most one guard governs the process. -/
  oneGlobal : ∀ g ∈ s.guards, ∀ h ∈ s.guards, g.scope = .global → h.scope = .global → g = h
  /-- A thread holds at most one guard. -/
  onePerThread : ∀ g ∈ s.guards, ∀ h ∈ s.guards, g.thread = h.thread → g = h
  /-- The override of the process is present exactly while some thread governs it. -/
  globalEntries : s.store.global ≠ none ↔ ∃ g ∈ s.guards, g.scope = .global
  /-- The override of a thread is present exactly while it governs itself. -/
  threadEntries : ∀ t, (s.store.slot t).entries ≠ none ↔
    ∃ g ∈ s.guards, g.thread = t ∧ g.scope = .thread
  /-- A guard is refused exactly where it would be a second one. -/
  refused : ∀ t scope entries, (∃ e, (s.store.lock t scope entries).1 = .error e) ↔
    (∃ g ∈ s.guards, g.thread = t) ∨ scope = .global ∧ ∃ g ∈ s.guards, g.scope = .global
  /-- A refusal changes nothing. -/
  unchanged : ∀ t scope e s', Step s (.refused t scope e) s' →
    s'.store = s.store ∧ s'.guards = s.guards
  /-- A thread reads what its own guard set last, else what the guard of the process set last,
  else the default. -/
  reads : ∀ t key, s.store.get t key =
    ((s.valueAt (some t) key).or (s.valueAt none key)).getD key.defaultValue
  /-- The guard of a thread is nothing to the others. -/
  apart : ∀ e s', Step s e s' → ∀ g, e.guard? = some g → g.scope = .thread →
    ∀ t, t ≠ g.thread → ∀ key, s'.store.get t key = s.store.get t key
  /-- A guard that was given back is not held again, so nothing that it set is read. -/
  reverted : ∀ g, .dropped g ∈ s.past → g ∉ s.guards

/-- **Guards and overrides go together.** -/
structure Kept (s : Session Thread) : Prop where
  nodup : s.guards.Nodup
  onePerThread : ∀ g ∈ s.guards, ∀ h ∈ s.guards, g.thread = h.thread → g = h
  onePerReach : ∀ g ∈ s.guards, ∀ h ∈ s.guards, g.reach = h.reach → g = h
  held : ∀ t scope, s.store.held t = some scope ↔ ∃ g ∈ s.guards, g.thread = t ∧ g.scope = scope
  shown : ∀ g ∈ s.guards, ∃ entries, s.store.override g.reach = some entries ∧
    ∀ key, entries.get? key = latest g key s.past
  governed : ∀ r, s.store.override r ≠ none → ∃ g ∈ s.guards, g.reach = r
  serial : ∀ g ∈ s.guards, g.serial < s.past.length
  reverted : ∀ g, .dropped g ∈ s.past → g.serial < s.past.length ∧ g ∉ s.guards

variable {s s' : Session Thread} {e : OptionEvent Thread} {g h : Guard Thread} {r : Option Thread}

theorem kept_new : (new : Session Thread).Kept where
  nodup := List.nodup_nil
  onePerThread := nofun
  onePerReach := nofun
  held _ _ := ⟨nofun, nofun⟩
  shown := nofun
  governed r hr := by cases r <;> exact absurd rfl hr
  serial := nofun
  reverted := nofun

theorem Kept.held_of_mem (hs : s.Kept) (hg : g ∈ s.guards) :
    s.store.held g.thread = some g.scope :=
  (hs.held _ _).2 ⟨g, hg, rfl, rfl⟩

/-- A step that leaves the overrides and the guards as they are. -/
theorem Kept.observe (hs : s.Kept) (hlatest : ∀ g key, latest g key (e :: s.past) =
    latest g key s.past) (hdropped : ∀ g, e ≠ .dropped g) :
    Kept ⟨s.store, s.guards, e :: s.past⟩ where
  nodup := hs.nodup
  onePerThread := hs.onePerThread
  onePerReach := hs.onePerReach
  held := hs.held
  shown g hg := by
    obtain ⟨entries, hentries, hvalues⟩ := hs.shown g hg
    exact ⟨entries, hentries, fun key => (hvalues key).trans (hlatest g key).symm⟩
  governed := hs.governed
  serial g hg := Nat.lt_succ_of_lt (hs.serial g hg)
  reverted g hg := by
    rcases List.mem_cons.1 hg with heq | hg
    · exact absurd heq.symm (hdropped g)
    · exact (hs.reverted g hg).imp_left Nat.lt_succ_of_lt

omit [DecidableEq Thread] in
/-- What tells the guards of a list apart still does with one more, if it tells that one from
each of them. -/
theorem eq_of_mem_cons {β : Type} {f : Guard Thread → β} {guards : List (Guard Thread)}
    (hguards : ∀ h ∈ guards, ∀ k ∈ guards, f h = f k → h = k) (hg : ∀ h ∈ guards, f h ≠ f g) :
    ∀ h ∈ g :: guards, ∀ k ∈ g :: guards, f h = f k → h = k := by
  rintro h hh k hk heq
  rcases List.mem_cons.1 hh with rfl | hh' <;> rcases List.mem_cons.1 hk with rfl | hk'
  · rfl
  · exact absurd heq.symm (hg k hk')
  · exact absurd heq (hg h hh')
  · exact hguards h hh' k hk' heq

/-- No guard that is held reaches where a new one does: its thread holds none, and none governs the
process if it is to. -/
theorem Kept.reach_ne (hs : s.Kept) (hthread : ∀ h ∈ s.guards, h.thread ≠ g.thread)
    (huntaken : g.reach = none → s.store.override none = none) :
    ∀ h ∈ s.guards, h.reach ≠ g.reach := by
  intro h hh heq
  cases hg : g.reach with
  | none =>
    obtain ⟨entries, hentries, -⟩ := hs.shown h hh
    rw [heq, hg, huntaken hg] at hentries
    cases hentries
  | some t =>
    have hown := Guard.reach_eq_some.1 (heq.trans hg)
    exact hthread h hh (hown.1.trans (Guard.reach_eq_some.1 hg).1.symm)

theorem Kept.lock (hs : s.Kept) {store : OptionStore Thread} {scope : Scope} {entries : Entries}
    (hserial : g.serial = s.past.length)
    (hlock : s.store.lock g.thread scope entries = (.ok g.scope, store)) :
    Kept ⟨store, g :: s.guards, .locked g entries :: s.past⟩ := by
  obtain ⟨hfree, huntaken, hheld, hoverride⟩ := OptionStore.of_lock hlock
  -- No guard is held that is the new one, has its thread, or has its reach.
  have hnew : ∀ h ∈ s.guards, h ≠ g := by
    rintro h hh rfl
    exact absurd (hs.serial h hh) (by omega)
  have hthread : ∀ h ∈ s.guards, h.thread ≠ g.thread := by
    intro h hh heq
    have := hs.held_of_mem hh
    rw [heq, hfree] at this
    cases this
  have hreach := hs.reach_ne hthread huntaken
  refine ⟨List.nodup_cons.2 ⟨fun hg => hnew g hg rfl, hs.nodup⟩,
    eq_of_mem_cons hs.onePerThread hthread, eq_of_mem_cons hs.onePerReach hreach,
    fun t scope => ?_, ?_, fun r hr => ?_, ?_, ?_⟩
  · simp only [hheld, List.mem_cons, exists_eq_or_imp]
    by_cases heq : t = g.thread
    · subst heq
      simp only [if_pos, Option.some.injEq, true_and]
      exact ⟨.inl, fun h => h.elim id fun ⟨k, hk, hthr, _⟩ => absurd hthr (hthread k hk)⟩
    · rw [if_neg heq, hs.held]
      exact ⟨.inr, fun h => h.elim (fun h => absurd h.1.symm heq) id⟩
  · intro h hh
    rcases List.mem_cons.1 hh with rfl | hh
    · exact ⟨entries, by rw [hoverride, if_pos rfl], fun key => by simp [latest]⟩
    · -- The new guard reaches nothing that was governed, so what the others show stays.
      obtain ⟨old, hold, hvalues⟩ := hs.shown h hh
      refine ⟨old, by rw [hoverride, if_neg (hreach h hh), hold], fun key => ?_⟩
      rw [hvalues, latest, if_neg (hnew h hh).symm]
  · rw [hoverride] at hr
    by_cases heq : r = g.reach
    · exact ⟨g, List.mem_cons_self, heq.symm⟩
    · obtain ⟨h, hh, hreach⟩ := hs.governed r (by rwa [if_neg heq] at hr)
      exact ⟨h, List.mem_cons_of_mem _ hh, hreach⟩
  · intro h hh
    rcases List.mem_cons.1 hh with rfl | hh
    · simp [hserial]
    · exact Nat.lt_succ_of_lt (hs.serial h hh)
  · intro h hh
    obtain heq | hh := List.mem_cons.1 hh
    · cases heq
    · obtain ⟨hbefore, hgone⟩ := hs.reverted h hh
      refine ⟨Nat.lt_succ_of_lt hbefore, fun hmem => ?_⟩
      rcases List.mem_cons.1 hmem with rfl | hmem
      · omega
      · exact hgone hmem

theorem Kept.set (hs : s.Kept) (hg : g ∈ s.guards) (key : OptionKey) (value : String) :
    Kept ⟨s.store.set g.thread g.scope key value, s.guards, .set g key value :: s.past⟩ where
  nodup := hs.nodup
  onePerThread := hs.onePerThread
  onePerReach := hs.onePerReach
  held t scope := by
    rw [OptionStore.held_set]
    exact hs.held t scope
  shown h hh := by
    have hoverride := OptionStore.override_set s.store g key value h.reach
    obtain ⟨entries, hentries, hvalues⟩ := hs.shown h hh
    by_cases heq : h = g
    · subst heq
      rw [if_pos rfl, hentries] at hoverride
      refine ⟨_, hoverride, fun key' => ?_⟩
      rw [Option.getD_some, Entries.get?_insert, latest, hvalues]
      simp [eq_comm]
    · have hreach : h.reach ≠ g.reach := fun h' => heq (hs.onePerReach h hh g hg h')
      rw [if_neg hreach] at hoverride
      refine ⟨entries, hoverride.trans hentries, fun key' => ?_⟩
      rw [hvalues, latest, if_neg fun h' => heq h'.1.symm]
  governed r hr := by
    rw [OptionStore.override_set] at hr
    by_cases heq : r = g.reach
    · exact ⟨g, hg, heq.symm⟩
    · exact hs.governed r (by rwa [if_neg heq] at hr)
  serial h hh := Nat.lt_succ_of_lt (hs.serial h hh)
  reverted h hh := by
    obtain heq | hh := List.mem_cons.1 hh
    · cases heq
    · exact (hs.reverted h hh).imp_left Nat.lt_succ_of_lt

theorem Kept.drop (hs : s.Kept) (hg : g ∈ s.guards) :
    Kept ⟨s.store.release g.thread g.scope, s.guards.erase g, .dropped g :: s.past⟩ := by
  have hheld := OptionStore.held_release s.store g
  have hoverride := OptionStore.override_release s.store g
  have hmem : ∀ h : Guard Thread, h ∈ s.guards.erase g ↔ h ≠ g ∧ h ∈ s.guards := fun _ =>
    hs.nodup.mem_erase_iff
  refine ⟨hs.nodup.erase g, ?_, ?_, fun t scope => ?_, ?_, fun r hr => ?_, ?_, ?_⟩
  · exact fun h hh k hk => hs.onePerThread h ((hmem h).1 hh).2 k ((hmem k).1 hk).2
  · exact fun h hh k hk => hs.onePerReach h ((hmem h).1 hh).2 k ((hmem k).1 hk).2
  -- The thread of the guard that is dropped holds none, as it had no other one.
  · simp only [hheld, hmem]
    by_cases heq : t = g.thread
    · rw [if_pos heq]
      refine ⟨nofun, fun ⟨k, ⟨hne, hk⟩, hthr, _⟩ => absurd ?_ hne⟩
      exact hs.onePerThread k hk g hg (hthr.trans heq)
    · rw [if_neg heq, hs.held]
      refine ⟨fun ⟨k, hk, hthr, hscope⟩ => ⟨k, ⟨?_, hk⟩, hthr, hscope⟩,
        fun ⟨k, ⟨_, hk⟩, hthr, hscope⟩ => ⟨k, hk, hthr, hscope⟩⟩
      rintro rfl
      exact heq hthr.symm
  · intro h hh
    obtain ⟨hne, hh⟩ := (hmem h).1 hh
    obtain ⟨entries, hentries, hvalues⟩ := hs.shown h hh
    have hreach : h.reach ≠ g.reach := fun h' => hne (hs.onePerReach h hh g hg h')
    exact ⟨entries, by rw [hoverride, if_neg hreach, hentries], hvalues⟩
  · rw [hoverride] at hr
    by_cases heq : r = g.reach
    · rw [if_pos heq] at hr
      exact absurd rfl hr
    · obtain ⟨h, hh, hreach⟩ := hs.governed r (by rwa [if_neg heq] at hr)
      refine ⟨h, (hmem h).2 ⟨?_, hh⟩, hreach⟩
      rintro rfl
      exact heq hreach.symm
  · exact fun h hh => Nat.lt_succ_of_lt (hs.serial h ((hmem h).1 hh).2)
  · intro h hh
    obtain heq | hh := List.mem_cons.1 hh
    · cases heq
      exact ⟨Nat.lt_succ_of_lt (hs.serial g hg), fun hstill => ((hmem g).1 hstill).1 rfl⟩
    · obtain ⟨hbefore, hgone⟩ := hs.reverted h hh
      exact ⟨Nat.lt_succ_of_lt hbefore, fun hstill => hgone ((hmem h).1 hstill).2⟩

/-- **One step** keeps guards and overrides together. -/
theorem Step.kept (h : Step s e s') (hs : s.Kept) : s'.Kept := by
  cases h with
  | lock g scope entries hserial hlock => exact hs.lock hserial hlock
  | refuse hlock =>
    rw [OptionStore.of_lock_error hlock]
    exact hs.observe (fun _ _ => rfl) nofun
  | set hg key value => exact hs.set hg key value
  | drop hg => exact hs.drop hg
  | read t key => exact hs.observe (fun _ _ => rfl) nofun

theorem Reached.kept (h : s.Reached) : s.Kept := by
  induction h with
  | refl => exact kept_new
  | tail _ hnext ih =>
    obtain ⟨e, hstep⟩ := hnext
    exact hstep.kept ih

/-! ## What a session promises -/

theorem Kept.override_ne_none_iff (hs : s.Kept) :
    s.store.override r ≠ none ↔ ∃ g ∈ s.guards, g.reach = r := by
  refine ⟨hs.governed r, ?_⟩
  rintro ⟨g, hg, rfl⟩
  obtain ⟨entries, hentries, -⟩ := hs.shown g hg
  exact hentries ▸ nofun

/-- The override of a reach has the values that its guard set last. -/
theorem Kept.valueAt_eq (hs : s.Kept) (r : Option Thread) (key : OptionKey) :
    (s.store.override r).bind (·.get? key) = s.valueAt r key := by
  rw [valueAt]
  cases hfound : s.guards.find? fun g => g.reach = r with
  | none =>
    have hnone : s.store.override r = none := by
      by_contra hsome
      obtain ⟨g, hg, hreach⟩ := hs.governed r hsome
      exact absurd (List.find?_eq_none.1 hfound g hg) (by simp [hreach])
    rw [hnone]
    rfl
  | some g =>
    have hreach : g.reach = r := by simpa using List.find?_some hfound
    obtain ⟨entries, hentries, hvalues⟩ := hs.shown g (List.mem_of_find?_eq_some hfound)
    rw [← hreach, hentries]
    exact hvalues key

/-- A step is about the override of its guard, and leaves the others alone. -/
theorem Step.override_eq (hstep : Step s e s') (hg : e.guard? = some g) (hr : r ≠ g.reach) :
    s'.store.override r = s.store.override r := by
  cases hstep with
  | lock _ _ _ _ hlock =>
    cases hg
    rw [(OptionStore.of_lock hlock).2.2.2, if_neg hr]
  | refuse _ => cases hg
  | set hmem key value =>
    cases hg
    rw [OptionStore.override_set, if_neg hr]
  | drop hmem =>
    cases hg
    rw [OptionStore.override_release, if_neg hr]
  | read _ _ => rfl

theorem Kept.orderly (hs : s.Kept) : s.Orderly where
  nodup := hs.nodup
  oneGlobal g hg h hh hgscope hhscope :=
    hs.onePerReach g hg h hh
      ((Guard.reach_eq_none.2 hgscope).trans (Guard.reach_eq_none.2 hhscope).symm)
  onePerThread := hs.onePerThread
  globalEntries := by
    refine (hs.override_ne_none_iff (r := none)).trans ?_
    simp only [Guard.reach_eq_none]
  threadEntries t := by
    refine (hs.override_ne_none_iff (r := some t)).trans ?_
    simp only [Guard.reach_eq_some]
  refused t scope entries := by
    rw [OptionStore.lock_eq_error_iff, hs.override_ne_none_iff]
    simp only [Guard.reach_eq_none]
    refine or_congr_left ⟨fun hheld => ?_, ?_⟩
    · obtain ⟨own, hown⟩ := Option.ne_none_iff_exists'.1 hheld
      obtain ⟨g, hg, hthread, -⟩ := (hs.held t own).1 hown
      exact ⟨g, hg, hthread⟩
    · rintro ⟨g, hg, rfl⟩
      exact hs.held_of_mem hg ▸ nofun
  unchanged t scope e s' hstep := by
    cases hstep with
    | refuse hlock => exact ⟨OptionStore.of_lock_error hlock, rfl⟩
  reads t key := by
    rw [OptionStore.get_eq, hs.valueAt_eq, hs.valueAt_eq]
  apart e s' hstep g hg hscope t ht key := by
    have hreach : g.reach = some g.thread := Guard.reach_eq_some.2 ⟨rfl, hscope⟩
    refine OptionStore.get_congr (hstep.override_eq hg ?_) (hstep.override_eq hg ?_) key
    · rw [hreach]
      exact fun h => ht (Option.some.inj h)
    · rw [hreach]
      exact nofun
  reverted g hg := (hs.reverted g hg).2

end Session

end

end Termwise
