import Mathlib.Logic.Function.Basic
import Mathlib.Tactic.Common

/-!
# Locks on files

`PosixEnv::LockFile` opens the file, enters its name into `locks_` and then asks the system for the
lock; `UnlockFile` gives up the lock, removes the name and closes the file. The lock of the
system belongs to the process, which loses it when it closes the file, however it was opened. So
a second call of `LockFile` that is refused, and the end of an `UnlockFile` after which another
call got the lock, take the lock away from the call that has it.

A state is what any number of processes have done about one file. A step is an operation on
`locks_` or a system call.
-/

namespace TLevelDB.Posix

/-- How far a call of `LockFile` has come, with the `UnlockFile` of the lock that it returns. -/
inductive LockCall where
  /-- Not begun, or over. -/
  | out
  /-- The file is open. -/
  | opened
  /-- `locks_.Insert` has failed, and the file is to be closed. -/
  | refused
  /-- The name is in `locks_`. -/
  | inserted
  /-- `fcntl` has failed, and the file is to be closed. -/
  | denied
  /-- The file is closed, and the name is to be removed. -/
  | closed
  /-- `LockFile` has returned the lock. -/
  | held
  /-- `UnlockFile` has given up the lock, and the name is to be removed. -/
  | unlocked
  /-- The name is removed, and the file is to be closed. -/
  | removed
deriving DecidableEq

/-- The name is in `locks_` because of the call. -/
def LockCall.registered : LockCall → Bool
  | .inserted | .denied | .closed | .held | .unlocked => true
  | _ => false

/-- Processes `P`, and calls `C` of each. -/
structure LockState (P C : Type) where
  /-- The name is in `locks_` of a process. -/
  locks : P → Bool
  /-- The process for which the system has locked the file. -/
  owner : Option P
  call : P × C → LockCall

namespace LockState

variable {P C : Type} [DecidableEq P] [DecidableEq C]

def init : LockState P C := ⟨fun _ => false, none, fun _ => .out⟩

/-- The owner when a process has unlocked or closed the file. -/
def release (s : LockState P C) (p : P) : Option P := if s.owner = some p then none else s.owner

/-- The next step of a call; `fails` says whether `fcntl` fails for a reason of its own. -/
def step (s : LockState P C) (p : P) (c : C) (fails : Bool) : LockState P C :=
  let go := Function.update s.call (p, c)
  match s.call (p, c) with
  | .out => { s with call := go .opened }
  | .opened =>
    if s.locks p then { s with call := go .refused }
    else { s with locks := Function.update s.locks p true, call := go .inserted }
  | .refused => { s with owner := s.release p, call := go .out }
  | .inserted =>
    if fails ∨ s.owner ≠ none ∧ s.owner ≠ some p then { s with call := go .denied }
    else { s with owner := some p, call := go .held }
  | .denied => { s with owner := s.release p, call := go .closed }
  | .closed => { s with locks := Function.update s.locks p false, call := go .out }
  -- `UnlockFile` returns the error, and the lock stays
  | .held => if fails then s else { s with owner := s.release p, call := go .unlocked }
  | .unlocked => { s with locks := Function.update s.locks p false, call := go .removed }
  | .removed => { s with owner := s.release p, call := go .out }

/-- The states that are reached by steps each of which satisfies `A` where it is made. -/
inductive Run (A : LockState P C → P → C → Prop) : LockState P C → Prop where
  | init : Run A init
  | step {s : LockState P C} {p : P} {c : C} (fails : Bool) : Run A s → A s p c → Run A (s.step p c fails)

/-- A process does not begin a call while another of its calls is under way. -/
def Alone (s : LockState P C) (p : P) (c : C) : Prop := s.call (p, c) = .out → ∀ c', s.call (p, c') = .out

variable {s : LockState P C} {p q : P} {c e : C} {A : LockState P C → P → C → Prop}

/-- In a process one call at a time has entered the name. -/
structure Registered (s : LockState P C) : Prop where
  locked : ∀ p c, (s.call (p, c)).registered = true → s.locks p = true
  unique : ∀ p c e, (s.call (p, c)).registered = true → (s.call (p, e)).registered = true → c = e

theorem Registered.step (h : Registered s) (fails : Bool) : Registered (s.step p c fails) := by
  obtain ⟨hlocked, hunique⟩ := h
  unfold LockState.step
  -- another call can only have entered the name if this one has not
  cases hcall : s.call (p, c) <;> dsimp only <;> try split_ifs
  all_goals constructor <;> grind [LockCall.registered, Function.update_apply]

/-- Calls of a process do not overlap, and what a call has locked is locked for its process. -/
structure Owned (s : LockState P C) : Prop where
  alone : ∀ p c e, s.call (p, c) ≠ .out → s.call (p, e) ≠ .out → c = e
  owner : ∀ p c, s.call (p, c) = .held → s.owner = some p

theorem Owned.step (h : Owned s) (hA : Alone s p c) (fails : Bool) : Owned (s.step p c fails) := by
  obtain ⟨halone, howner⟩ := h
  unfold Alone at hA
  unfold LockState.step
  -- whenever the process closes the file, its other calls are over
  cases hcall : s.call (p, c) <;> dsimp only <;> try split_ifs
  all_goals constructor <;> grind [release, Function.update_apply]

theorem Run.registered (h : Run A s) : Registered s := by
  induction h with
  | init => exact ⟨by simp [LockState.init, LockCall.registered], by simp [LockState.init, LockCall.registered]⟩
  | step fails _ _ ih => exact ih.step fails

theorem Run.owned (h : Run Alone s) : Owned s := by
  induction h with
  | init => exact ⟨by simp [LockState.init], by simp [LockState.init]⟩
  | step fails _ hA ih => exact ih.step hA fails

end LockState

end TLevelDB.Posix
