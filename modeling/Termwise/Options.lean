import Termwise.Compilation.Basic

/-!
# Scoped options

Options are texts under a few fixed keys. A value is read from the override of the reading
thread, then from the override of the whole process, then from the default. Overrides come with a
guard: taking one needs that the thread holds none, and for the whole process that no thread
holds one for it; giving the guard back takes away every value that was set under it.

A guard is with its thread and has the scope that it was taken for, which alone decides what is set
and taken away through it. Threads are named by the values of a type of the caller's choice, and
each operation is one atomic step, so that the steps of many threads may come in any order.

## Main definitions

* `OptionKey`: the options
* `Scope`, `LockError`: what a guard governs, and why it may be refused
* `OptionStore`: the overrides, and which threads hold a guard
* `OptionStore.lock`, `OptionStore.set`, `OptionStore.release`, `OptionStore.get`: the steps
-/

namespace Termwise

/-- The options. -/
inductive OptionKey where
  /-- Write the type behind every expression that is shown. -/
  | printAllTypes
  /-- Keep every use of a definition as it is. -/
  | debugNoInline
  /-- Colour the rendered reports. -/
  | diagnosticColor
deriving DecidableEq, Inhabited

namespace OptionKey

/-- Every option. -/
def all : List OptionKey := [printAllTypes, debugNoInline, diagnosticColor]

/-- The key under which a configuration sets an option. -/
def key : OptionKey → String
  | printAllTypes => "print-all-types"
  | debugNoInline => "debug-no-inline"
  | diagnosticColor => "diagnostic-color"

/-- The value without an override. -/
def defaultValue : OptionKey → String
  | printAllTypes | debugNoInline | diagnosticColor => "false"

/-- The option with a key. -/
def ofKey? (key : String) : Option OptionKey := all.find? fun option => option.key == key

end OptionKey

/-- The values that an override sets, at most one for each option. -/
abbrev Entries := List (OptionKey × String)

namespace Entries

/-- The value of an option, if the override sets it. -/
def get? (entries : Entries) (option : OptionKey) : Option String :=
  (entries.find? fun (k, _) => k == option).map Prod.snd

/-- Sets an option, in place of an earlier value. -/
def insert (entries : Entries) (option : OptionKey) (value : String) : Entries :=
  (option, value) :: entries.filter fun (k, _) => k != option

/-- The values of a list of settings, the last one for each option. -/
def ofList (settings : List (OptionKey × String)) : Entries :=
  settings.foldl (fun entries (option, value) => insert entries option value) []

end Entries

/-- What a guard governs: the whole process, or the thread that took it. -/
inductive Scope where
  | global
  | thread
deriving DecidableEq, Inhabited

/-- Why a guard was refused. -/
inductive LockError where
  /-- The thread holds a guard already. -/
  | alreadyHeld (scope : Scope)
  /-- Another thread holds the guard of the process. -/
  | globalTaken
deriving DecidableEq

/-- The message for a refused guard. -/
def LockError.message : LockError → String
  | alreadyHeld .global => "this thread already holds the global options lock"
  | alreadyHeld .thread => "this thread already holds a thread-local options lock"
  | globalTaken => "the global options lock is held by another thread"

/-- What a thread has: the scope of the guard that it holds, and its own override. -/
structure ThreadSlot where
  held : Option Scope
  entries : Option Entries
deriving DecidableEq

/-- A thread without a guard. -/
def ThreadSlot.free : ThreadSlot := ⟨none, none⟩

instance : Inhabited ThreadSlot := ⟨.free⟩

/-- The overrides of the process and of all threads, and which threads hold a guard. -/
structure OptionStore (Thread : Type) where
  global : Option Entries
  slot : Thread → ThreadSlot

namespace OptionStore

variable {Thread : Type} [DecidableEq Thread]

/-- No override and no guard. -/
def new : OptionStore Thread := ⟨none, fun _ => .free⟩

/-- Changes what one thread has. -/
def setSlot (store : OptionStore Thread) (thread : Thread) (slot : ThreadSlot) :
    OptionStore Thread :=
  { store with slot := fun t => if t = thread then slot else store.slot t }

/-- Takes a guard for a thread, with the values that it sets at first. Comes with the scope of the
guard or why it was refused. -/
def lock (store : OptionStore Thread) (thread : Thread) (scope : Scope) (entries : Entries) :
    Except LockError Scope × OptionStore Thread :=
  match (store.slot thread).held, scope with
  | some held, _ => (.error (.alreadyHeld held), store)
  | none, .thread => (.ok .thread, store.setSlot thread ⟨some .thread, some entries⟩)
  | none, .global =>
    if store.global.isSome then (.error .globalTaken, store)
    else
      let slot := store.slot thread
      (.ok .global,
        { store.setSlot thread { slot with held := some .global } with global := some entries })

/-- Sets an option through a guard of a thread. -/
def set (store : OptionStore Thread) (thread : Thread) (scope : Scope) (option : OptionKey)
    (value : String) : OptionStore Thread :=
  match scope with
  | .global => { store with global := some ((store.global.getD []).insert option value) }
  | .thread =>
    let slot := store.slot thread
    store.setSlot thread { slot with entries := some ((slot.entries.getD []).insert option value) }

/-- Gives back a guard of a thread, with every value set through it. -/
def release (store : OptionStore Thread) (thread : Thread) (scope : Scope) :
    OptionStore Thread :=
  let slot := store.slot thread
  match scope with
  | .global => { store.setSlot thread { slot with held := none } with global := none }
  | .thread => store.setSlot thread { held := none, entries := none }

/-- The value of an option as a thread reads it. -/
def get (store : OptionStore Thread) (thread : Thread) (option : OptionKey) : String :=
  match (store.slot thread).entries.bind (·.get? option), store.global.bind (·.get? option) with
  | some value, _ => value
  | none, some value => value
  | none, none => option.defaultValue

/-- Whether an option is switched on, as a thread reads it: its value is exactly this word. -/
def isOn (store : OptionStore Thread) (thread : Thread) (option : OptionKey) : Bool :=
  store.get thread option == "true"

/-- The switches of the passes, as a thread reads them. -/
def settings (store : OptionStore Thread) (thread : Thread) : Settings where
  printAllTypes := store.isOn thread .printAllTypes
  debugNoInline := store.isOn thread .debugNoInline
  diagnosticColor := store.isOn thread .diagnosticColor

end OptionStore

end Termwise
