import Mathlib.Data.List.Basic
import Mathlib.Algebra.Order.Ring.Nat

/-!
# Buffered writes

`PosixWritableFile` collects what is appended in a buffer of 64 KiB, and hands it on to
`::write` when the buffer is full or is flushed. An append that does not fit fills the buffer
up first; what is left is buffered again or, if it is large, written at once.

`::write` may write less than it is asked to, and may be interrupted. The results of its calls
are a sequence, of which the loop of `WriteUnbuffered` uses one each turn. As the loop has no
bound, it is given a number of turns, and has no result if it needs more (`Returns`).

Nothing is lost or comes out of order: at any time the file and the buffer together hold what
was appended (`Inv`, `runAll_opened`).
-/

namespace TLevelDB.Posix

/-! ### Loops with enough turns -/

section Returns

variable {α β : Type}

/-- The computation has the result `a` if it is given enough turns. -/
def Returns (x : ℕ → Option α) (a : α) : Prop := ∃ fuel, ∀ fuel', fuel ≤ fuel' → x fuel' = some a

theorem returns_some (a : α) : Returns (fun _ => some a) a := ⟨0, fun _ _ => rfl⟩

theorem Returns.bind {x : ℕ → Option α} {a : α} {y : ℕ → α → Option β} {b : β} (hx : Returns x a)
    (hy : Returns (fun fuel => y fuel a) b) : Returns (fun fuel => (x fuel).bind (y fuel)) b := by
  obtain ⟨n, hn⟩ := hx
  obtain ⟨m, hm⟩ := hy
  refine ⟨max n m, fun fuel hfuel => ?_⟩
  exact Option.bind_eq_some_iff.mpr ⟨a, hn fuel (by omega), hm fuel (by omega)⟩

theorem Returns.succ {x y : ℕ → Option α} {a : α} (hx : Returns x a) (h : ∀ fuel, y (fuel + 1) = x fuel) : Returns y a := by
  obtain ⟨n, hn⟩ := hx
  refine ⟨n + 1, fun fuel hfuel => ?_⟩
  obtain ⟨m, rfl⟩ : ∃ m, fuel = m + 1 := ⟨fuel - 1, by omega⟩
  rw [h, hn m (by omega)]

end Returns

/-! ### `PosixWritableFile` -/

def kWritableFileBufferSize : ℕ := 65536

inductive Errno where
  | eintr
  | other (code : ℕ)

inductive Status where
  | ok
  | posixError (errno : Errno)

/-- What a call of `::write` does. It never writes more than it is asked to. -/
inductive WriteResult where
  | wrote (n : ℕ)
  | failed (errno : Errno)

/-- `PosixWritableFile`, with the file that it writes. -/
structure PosixWritableFile where
  buf : List UInt8
  pos : ℕ
  isManifest : Bool
  /-- The bytes in the file. -/
  file : List UInt8
  /-- How many calls of `::write` there have been. -/
  writes : ℕ

/-- `std::memcpy` to an offset of the buffer. -/
def memcpy (buf : List UInt8) (offset : ℕ) (data : List UInt8) : List UInt8 :=
  buf.take offset ++ data ++ buf.drop (offset + data.length)

/-- What a system call that may fail returns. -/
def result : Option Errno → Status
  | none => .ok
  | some errno => .posixError errno

namespace PosixWritableFile

variable (os : ℕ → WriteResult)

def writeUnbuffered : ℕ → List UInt8 → PosixWritableFile → Option (Status × PosixWritableFile)
  | 0, _, _ => none
  | fuel + 1, data, f =>
    if data.isEmpty then some (.ok, f)
    else
      match os f.writes with
      | .failed .eintr => writeUnbuffered fuel data { f with writes := f.writes + 1 }
      | .failed errno => some (.posixError errno, { f with writes := f.writes + 1 })
      | .wrote n => writeUnbuffered fuel (data.drop n) { f with file := f.file ++ data.take n, writes := f.writes + 1 }

def flushBuffer (fuel : ℕ) (f : PosixWritableFile) : Option (Status × PosixWritableFile) := do
  let (status, f) ← writeUnbuffered os fuel (f.buf.take f.pos) f
  some (status, { f with pos := 0 })

def append (fuel : ℕ) (data : List UInt8) (f : PosixWritableFile) : Option (Status × PosixWritableFile) :=
  let copySize := min data.length (kWritableFileBufferSize - f.pos)
  let f := { f with buf := memcpy f.buf f.pos (data.take copySize), pos := f.pos + copySize }
  let data := data.drop copySize
  if data.isEmpty then some (.ok, f)
  else do
    let (status, f) ← flushBuffer os fuel f
    match status with
    | .ok =>
      if data.length < kWritableFileBufferSize then
        some (.ok, { f with buf := memcpy f.buf 0 data, pos := data.length })
      else writeUnbuffered os fuel data f
    | status => some (status, f)

/-- `SyncDirIfManifest`, where `openDir` and `syncDir` tell how opening and syncing the
directory end. -/
def syncDirIfManifest (openDir syncDir : Option Errno) (f : PosixWritableFile) : Status :=
  if f.isManifest then
    match openDir with
    | some errno => .posixError errno
    | none => result syncDir
  else .ok

def sync (fuel : ℕ) (openDir syncDir syncFd : Option Errno) (f : PosixWritableFile) : Option (Status × PosixWritableFile) :=
  match f.syncDirIfManifest openDir syncDir with
  | .ok => do
    let (status, f) ← flushBuffer os fuel f
    match status with
    | .ok => some (result syncFd, f)
    | status => some (status, f)
  | status => some (status, f)

/-- `Close`, which the file descriptor does not outlive. -/
def close (fuel : ℕ) (closed : Option Errno) (f : PosixWritableFile) : Option (Status × PosixWritableFile) := do
  let (status, f) ← flushBuffer os fuel f
  match status with
  | .ok => some (result closed, f)
  | status => some (status, f)

end PosixWritableFile

/-- A call. -/
inductive Call where
  | append (data : List UInt8)
  | flush
  | sync (openDir syncDir syncFd : Option Errno)

namespace Call

variable (os : ℕ → WriteResult)

def run (fuel : ℕ) : Call → PosixWritableFile → Option (Status × PosixWritableFile)
  | append data, f => f.append os fuel data
  | flush, f => f.flushBuffer os fuel
  | sync openDir syncDir syncFd, f => f.sync os fuel openDir syncDir syncFd

/-- Calls one after the other. -/
def runAll (fuel : ℕ) : List Call → PosixWritableFile → Option (List Status × PosixWritableFile)
  | [], f => some ([], f)
  | c :: calls, f => do
    let (status, f) ← c.run os fuel f
    let (statuses, f) ← runAll fuel calls f
    some (status :: statuses, f)

/-- What a call appends. -/
def data : Call → List UInt8
  | append data => data
  | _ => []

/-- No call to the system other than `::write` fails. -/
def Succeeds : Call → Prop
  | sync openDir syncDir syncFd => openDir = none ∧ syncDir = none ∧ syncFd = none
  | _ => True

/-- The call is one after which the buffer is empty. -/
def Flushes : Call → Prop
  | append _ => False
  | _ => True

end Call

/-- Each call of `::write` writes something or is interrupted, and interruptions end. -/
structure Cooperates (os : ℕ → WriteResult) : Prop where
  result : ∀ n, os n = .failed .eintr ∨ ∃ k, 0 < k ∧ os n = .wrote k
  ends : ∀ n, ∃ m, n ≤ m ∧ os m ≠ .failed .eintr

/-! ### What was appended -/

/-- The file and the buffer hold what was appended. -/
structure Inv (f : PosixWritableFile) (appended : List UInt8) : Prop where
  length_buf : f.buf.length = kWritableFileBufferSize
  pos_le : f.pos ≤ kWritableFileBufferSize
  contents : f.file ++ f.buf.take f.pos = appended

theorem length_memcpy {buf data : List UInt8} {offset : ℕ} (h : offset + data.length ≤ buf.length) :
    (memcpy buf offset data).length = buf.length := by
  simp only [memcpy, List.length_append, List.length_take, List.length_drop]
  omega

theorem take_memcpy {buf : List UInt8} (data : List UInt8) {offset : ℕ} (h : offset ≤ buf.length) :
    (memcpy buf offset data).take (offset + data.length) = buf.take offset ++ data := by
  rw [memcpy, List.take_left' (by simp [h])]

section Runs

variable {os : ℕ → WriteResult} {f : PosixWritableFile} {appended : List UInt8}

/-- The calls of `::write` up to the next that writes something: the loop goes on with the
rest of the data. -/
theorem writeUnbuffered_next (hos : Cooperates os) {data : List UInt8} (hne : data ≠ []) (f : PosixWritableFile) :
    ∃ k writes, 0 < k ∧ ∀ r, Returns (fun fuel => PosixWritableFile.writeUnbuffered os fuel (data.drop k)
      { f with file := f.file ++ data.take k, writes := writes }) r → Returns (fun fuel => f.writeUnbuffered os fuel data) r := by
  obtain ⟨m, hm, hwrites⟩ := hos.ends f.writes
  -- by induction on the calls up to the one that is not interrupted
  induction hd : m - f.writes generalizing f with
  | zero =>
    obtain rfl : m = f.writes := by omega
    obtain ⟨k, hk, hwrote⟩ := (hos.result f.writes).resolve_left hwrites
    refine ⟨k, f.writes + 1, hk, fun r hr => hr.succ fun fuel => ?_⟩
    rw [PosixWritableFile.writeUnbuffered, if_neg (by simpa using hne), hwrote]
  | succ d ih =>
    rcases hos.result f.writes with hintr | ⟨k, hk, hwrote⟩
    · obtain ⟨k, writes, hk, hnext⟩ := ih { f with writes := f.writes + 1 } (show f.writes + 1 ≤ m by omega)
        (show m - (f.writes + 1) = d by omega)
      refine ⟨k, writes, hk, fun r hr => (hnext r hr).succ fun fuel => ?_⟩
      rw [PosixWritableFile.writeUnbuffered, if_neg (by simpa using hne), hintr]
    · refine ⟨k, f.writes + 1, hk, fun r hr => hr.succ fun fuel => ?_⟩
      rw [PosixWritableFile.writeUnbuffered, if_neg (by simpa using hne), hwrote]

/-- **`WriteUnbuffered` writes all of the data** to the end of the file. -/
theorem writeUnbuffered_returns (hos : Cooperates os) (data : List UInt8) (f : PosixWritableFile) : ∃ writes,
    Returns (fun fuel => f.writeUnbuffered os fuel data) (.ok, { f with file := f.file ++ data, writes := writes }) := by
  induction hn : data.length using Nat.strong_induction_on generalizing data f with
  | h len ih =>
    by_cases hne : data = []
    · subst hne
      refine ⟨f.writes, (returns_some _).succ fun fuel => ?_⟩
      simp [PosixWritableFile.writeUnbuffered]
    · obtain ⟨k, writes, hk, hnext⟩ := writeUnbuffered_next hos hne f
      have hpos := List.length_pos_iff.mpr hne
      obtain ⟨writes', h⟩ := ih (data.drop k).length (by rw [List.length_drop]; omega) (data.drop k)
        { f with file := f.file ++ data.take k, writes := writes } rfl
      refine ⟨writes', hnext _ ?_⟩
      simpa using h

theorem Inv.flushBuffer (hos : Cooperates os) (h : Inv f appended) :
    ∃ f', Returns (fun fuel => f.flushBuffer os fuel) (.ok, f') ∧ Inv f' appended ∧ f'.pos = 0 := by
  obtain ⟨writes, hw⟩ := writeUnbuffered_returns hos (f.buf.take f.pos) f
  exact ⟨_, hw.bind (returns_some _), ⟨h.length_buf, Nat.zero_le _, by simpa using h.contents⟩, rfl⟩

theorem Inv.append (hos : Cooperates os) (h : Inv f appended) (data : List UInt8) :
    ∃ f', Returns (fun fuel => f.append os fuel data) (.ok, f') ∧ Inv f' (appended ++ data) := by
  unfold PosixWritableFile.append
  extract_lets copySize f₁ rest
  -- the buffer takes what it has room for
  have hpos := h.pos_le
  have hsize : copySize ≤ kWritableFileBufferSize - f.pos := Nat.min_le_right _ _
  have hcopy : (data.take copySize).length = copySize := by
    rw [List.length_take]
    exact Nat.min_eq_left (Nat.min_le_left _ _)
  have h₁ : Inv f₁ (appended ++ data.take copySize) := by
    refine ⟨?_, show f.pos + copySize ≤ _ by omega, ?_⟩
    · exact (length_memcpy (by rw [hcopy, h.length_buf]; omega)).trans h.length_buf
    · have htake := take_memcpy (data.take copySize) (h.length_buf ▸ hpos)
      rw [hcopy] at htake
      show f.file ++ (memcpy f.buf f.pos (data.take copySize)).take (f.pos + copySize) = _
      rw [htake, ← List.append_assoc, h.contents]
  have hrest : appended ++ data.take copySize ++ rest = appended ++ data := by simp [rest]
  by_cases hempty : rest.isEmpty
  · rw [List.isEmpty_iff.mp hempty, List.append_nil] at hrest
    simp only [if_pos hempty]
    exact ⟨f₁, returns_some _, hrest ▸ h₁⟩
  · simp only [if_neg hempty]
    obtain ⟨f₂, hflush, h₂, hpos₂⟩ := h₁.flushBuffer hos
    have hfile : f₂.file = appended ++ data.take copySize := by simpa [hpos₂] using h₂.contents
    by_cases hsmall : rest.length < kWritableFileBufferSize
    · -- the rest is buffered again
      refine ⟨{ f₂ with buf := memcpy f₂.buf 0 rest, pos := rest.length }, hflush.bind ?_, ?_, hsmall.le, ?_⟩
      · simp only [if_pos hsmall]
        exact returns_some _
      · exact (length_memcpy (by rw [h₂.length_buf]; omega)).trans h₂.length_buf
      · have htake := take_memcpy rest (Nat.zero_le f₂.buf.length)
        rw [Nat.zero_add] at htake
        show f₂.file ++ (memcpy f₂.buf 0 rest).take rest.length = _
        rw [htake, hfile]
        simpa using hrest
    · -- the rest is written at once
      obtain ⟨writes, hw⟩ := writeUnbuffered_returns hos rest f₂
      refine ⟨{ f₂ with file := f₂.file ++ rest, writes := writes }, hflush.bind ?_, h₂.length_buf, h₂.pos_le, ?_⟩
      · simp only [if_neg hsmall]
        exact hw
      · rw [hpos₂, List.take_zero, List.append_nil, hfile, hrest]

/-- Closing the file leaves all of it in the file. -/
theorem Inv.close (hos : Cooperates os) (h : Inv f appended) :
    ∃ f', Returns (fun fuel => f.close os fuel none) (.ok, f') ∧ f'.file = appended := by
  obtain ⟨f', hr, h', hpos⟩ := h.flushBuffer hos
  exact ⟨f', hr.bind (returns_some _), by simpa [hpos] using h'.contents⟩

theorem Inv.run (hos : Cooperates os) (h : Inv f appended) {c : Call} (hc : c.Succeeds) :
    ∃ f', Returns (fun fuel => c.run os fuel f) (.ok, f') ∧ Inv f' (appended ++ c.data) ∧ (c.Flushes → f'.pos = 0) := by
  cases c with
  | append data =>
    obtain ⟨f', hr, h'⟩ := h.append hos data
    exact ⟨f', hr, h', False.elim⟩
  | flush =>
    obtain ⟨f', hr, h', hpos⟩ := h.flushBuffer hos
    exact ⟨f', hr, by simpa [Call.data] using h', fun _ => hpos⟩
  | sync openDir syncDir syncFd =>
    obtain ⟨rfl, rfl, rfl⟩ := hc
    obtain ⟨f', hr, h', hpos⟩ := h.flushBuffer hos
    have hdir : f.syncDirIfManifest none none = .ok := by simp [PosixWritableFile.syncDirIfManifest, result]
    refine ⟨f', ?_, by simpa [Call.data] using h', fun _ => hpos⟩
    simp only [Call.run, PosixWritableFile.sync, hdir]
    exact hr.bind (returns_some _)

theorem Inv.runAll (hos : Cooperates os) (h : Inv f appended) {calls : List Call} (hcalls : ∀ c ∈ calls, c.Succeeds) :
    ∃ f', Returns (fun fuel => Call.runAll os fuel calls f) (calls.map fun _ => .ok, f') ∧
      Inv f' (appended ++ calls.flatMap Call.data) ∧ ∀ c ∈ calls.getLast?, c.Flushes → f'.pos = 0 := by
  induction calls generalizing f appended with
  | nil => exact ⟨f, returns_some _, by simpa using h, by simp⟩
  | cons c calls ih =>
    obtain ⟨hc, hcalls⟩ := List.forall_mem_cons.mp hcalls
    obtain ⟨f₁, hr₁, h₁, hpos₁⟩ := h.run hos hc
    cases calls with
    | nil => exact ⟨f₁, hr₁.bind (returns_some _), by simpa using h₁, by simpa using hpos₁⟩
    | cons d calls =>
      obtain ⟨f₂, hr₂, h₂, hpos₂⟩ := ih h₁ hcalls
      exact ⟨f₂, hr₁.bind (hr₂.bind (returns_some _)), by simpa using h₂, by simpa using hpos₂⟩

end Runs

/-- The file that `NewWritableFile` or `NewAppendableFile` opens, with what it already holds. -/
def opened (buf : List UInt8) (isManifest : Bool) (old : List UInt8) : PosixWritableFile := ⟨buf, 0, isManifest, old, 0⟩

/-- **Nothing is lost or comes out of order.** Any calls return with success, and after them the
file and the first `pos_` bytes of the buffer hold what was appended, one after the other. The
buffer is empty after a flush or a sync. -/
theorem runAll_opened {os : ℕ → WriteResult} (hos : Cooperates os) {buf : List UInt8}
    (hbuf : buf.length = kWritableFileBufferSize) (isManifest : Bool) (old : List UInt8) {calls : List Call}
    (hcalls : ∀ c ∈ calls, c.Succeeds) :
    ∃ f, Returns (fun fuel => Call.runAll os fuel calls (opened buf isManifest old)) (calls.map fun _ => .ok, f) ∧
      f.file ++ f.buf.take f.pos = old ++ calls.flatMap Call.data ∧ f.pos ≤ kWritableFileBufferSize ∧
      ∀ c ∈ calls.getLast?, c.Flushes → f.pos = 0 := by
  have h : Inv (opened buf isManifest old) old := ⟨hbuf, Nat.zero_le _, by simp [opened]⟩
  obtain ⟨f, hr, hf, hpos⟩ := h.runAll hos hcalls
  exact ⟨f, hr, hf.contents, hf.pos_le, hpos⟩

/-- Every other call of `::write` is interrupted, and the others write one byte. -/
def slowOs (n : ℕ) : WriteResult := if n % 2 = 0 then .failed .eintr else .wrote 1

theorem runAll_opened_slow : ∃ f, Returns (fun fuel => Call.runAll slowOs fuel [.append [1, 2, 3], .flush]
      (opened (List.replicate kWritableFileBufferSize 0) false [])) ([.ok, .ok], f) ∧
    f.file ++ f.buf.take f.pos = [1, 2, 3] ∧ f.pos ≤ kWritableFileBufferSize ∧
    ∀ c ∈ [Call.append [1, 2, 3], .flush].getLast?, c.Flushes → f.pos = 0 := by
  have hos : Cooperates slowOs := by
    refine ⟨fun n => ?_, fun n => ⟨2 * n + 1, by omega, ?_⟩⟩
    · unfold slowOs
      split_ifs
      · exact Or.inl rfl
      · exact Or.inr ⟨1, Nat.one_pos, rfl⟩
    · simp [slowOs, show (2 * n + 1) % 2 = 1 by omega]
  exact runAll_opened hos List.length_replicate false [] (by simp [Call.Succeeds])

end TLevelDB.Posix
