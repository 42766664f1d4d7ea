import Cvos.CfgFile.FileCycle
import Cvos.CfgFile.WriteRoom
import Cvos.Lib.Transition
import Mathlib.Logic.Function.Basic

/-! Processes that each run one `Cfg_WriteStr` on the same existing file. `cfg_refresh` reads
the file under a read lock and `cfg_commit` rewrites it under a write lock, but the process holds
no lock in between.
-/

namespace Cvos.CfgFile

open Cvos.Lib

/-- Where a process stands in its call, with the bytes it has read, of which the code keeps no
copy, and its configuration.
-/
inductive Pc where
  | start
  | reading
  | refreshed (base : Bytes) (c : Config)
  | loaded (base : Bytes) (c : Config)
  | changed (base : Bytes) (c : Config)
  | writing (base : Bytes) (c : Config)
  | truncated (base : Bytes) (c : Config)
  | written (base : Bytes) (c : Config)
  | finished (ret : Int)
  deriving DecidableEq, Repr

/-- The process holds the write lock. -/
def Pc.holdsWrite : Pc → Bool
  | .writing .. | .truncated .. | .written .. => true
  | _ => false

/-- The process holds a lock. -/
def Pc.holdsLock : Pc → Bool
  | .reading | .refreshed .. => true
  | pc => pc.holdsWrite

/-- The file and the processes. -/
structure System (Proc : Type) where
  file : FileData
  pcs : Proc → Pc

inductive Action where
  | lockRead
  | refresh
  | unlockRead
  | change
  | commit
  | lockWrite
  | truncate
  | output
  | unlockWrite
  | fail
  deriving DecidableEq, Repr

section Steps

variable {Proc : Type} [DecidableEq Proc]

/-- All processes are about to start their calls. -/
def System.started (file : FileData) : System Proc where
  file := file
  pcs := fun _ => .start

/-- The process goes on to another point and leaves the file as given. -/
def System.move (s : System Proc) (p : Proc) (file : FileData) (pc : Pc) : System Proc where
  file := file
  pcs := Function.update s.pcs p pc

/-- A read lock is granted: no other process holds the write lock. -/
def System.freeToRead (s : System Proc) (p : Proc) : Prop :=
  ∀ q, q ≠ p → (s.pcs q).holdsWrite = false

/-- A write lock is granted: no other process holds a lock. -/
def System.freeToWrite (s : System Proc) (p : Proc) : Prop :=
  ∀ q, q ≠ p → (s.pcs q).holdsLock = false

variable (args : Proc → Write)

/-- One system call of a process, or what it does in memory between two of them. A call that
has failed returns the error of the function that it has failed in. A `cfg_write` that leaves the
entry array goes on with any configuration.
-/
inductive Step : System Proc → Proc × Action → System Proc → Prop
  | lockRead {s p} (start : s.pcs p = .start) (free : s.freeToRead p)
    : Step s (p, .lockRead) (s.move p s.file .reading)
  | refresh {s p sys c} (reading : s.pcs p = .reading)
    (refreshed : cfgRefresh sys (some s.file) cfgFreeimage = .ok (0, c))
    : Step s (p, .refresh) (s.move p s.file (.refreshed s.file.content c))
  | unlockRead {s p base c} (refreshed : s.pcs p = .refreshed base c)
    : Step s (p, .unlockRead) (s.move p s.file (.loaded base c))
  | initFails {s p} (opening : s.pcs p = .start ∨ s.pcs p = .reading)
    : Step s (p, .fail) (s.move p s.file (.finished (-11)))
  | change {s p base c ret c'} (loaded : s.pcs p = .loaded base c)
    (written
      : cfgWrite c (some (args p).sectionName) (some (args p).entry) (some (args p).valptr)
        = .ok (ret, c'))
    : Step s (p, .change) (s.move p s.file (.changed base c'))
  | overrun {s p base c} (loaded : s.pcs p = .loaded base c)
    (leaves
      : ∀ result,
          cfgWrite c (some (args p).sectionName) (some (args p).entry) (some (args p).valptr)
          ≠ .ok result)
    (c' : Config)
    : Step s (p, .change) (s.move p s.file (.changed base c'))
  | notValid {s p base c} (changed : s.pcs p = .changed base c) (invalid : c.valid = false)
    : Step s (p, .commit) (s.move p s.file (.finished (-1)))
  | notDirty {s p base c} (changed : s.pcs p = .changed base c) (valid : c.valid)
    (clean : c.dirty = false)
    : Step s (p, .commit) (s.move p s.file (.finished 0))
  | openFails {s p base c} (changed : s.pcs p = .changed base c) (valid : c.valid)
    (dirty : c.dirty)
    : Step s (p, .fail) (s.move p s.file (.finished (-4)))
  | lockFails {s p base c} (changed : s.pcs p = .changed base c) (valid : c.valid)
    (dirty : c.dirty)
    : Step s (p, .fail) (s.move p s.file (.finished (-100)))
  | lockWrite {s p base c} (changed : s.pcs p = .changed base c) (valid : c.valid)
    (dirty : c.dirty) (free : s.freeToWrite p)
    : Step s (p, .lockWrite) (s.move p s.file (.writing base c))
  | fopenFails {s p base c} (writing : s.pcs p = .writing base c)
    : Step s (p, .fail) (s.move p s.file (.finished (-2)))
  | truncate {s p base c} (writing : s.pcs p = .writing base c) (time : Nat)
    : Step s (p, .truncate) (s.move p ⟨[], time⟩ (.truncated base c))
  | output {s p base c} (truncated : s.pcs p = .truncated base c) (time : Nat)
    : Step s (p, .output) (s.move p ⟨cfgOutput c, time⟩ (.written base c))
  | unlockWrite {s p base c} (written : s.pcs p = .written base c)
    : Step s (p, .unlockWrite) (s.move p s.file (.finished 0))

end Steps

/-- If the step takes a write lock, the file still has the bytes that the process has read. -/
def Fresh {Proc : Type} (s : System Proc) (label : Proc × Action) : Prop :=
  label.2 = .lockWrite → ∀ base c, s.pcs label.1 = .changed base c → s.file.content = base

/-- If the step changes the configuration, the array has room for a key that has to be put in front
of a header.
-/
def Roomy {Proc : Type} (args : Proc → Write) (s : System Proc) (label : Proc × Action) : Prop :=
  label.2 = .change
  → ∀ base c,
      s.pcs label.1 = .loaded base c
      → InsertsBeforeHeader c.pool.entries (args label.1).sectionName (args label.1).entry
      → c.pool.entries.length + 1 < c.pool.maxEntries

/-- The section of the file has the key with the value. -/
def Contains (content : Bytes) (w : Write) : Prop :=
  ∃ e ∈ (sectionBody (parseImage content) w.sectionName).getD [],
    e.id = some w.entry ∧ e.value = some w.valptr

instance (content : Bytes) (w : Write) : Decidable (Contains content w) :=
  inferInstanceAs
    (Decidable
      (∃ e ∈ (sectionBody (parseImage content) w.sectionName).getD [],
        e.id = some w.entry ∧ e.value = some w.valptr))

end Cvos.CfgFile
