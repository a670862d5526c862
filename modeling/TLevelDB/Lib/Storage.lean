import Mathlib.Data.List.Basic
import Mathlib.Logic.Function.Basic

/-!
# Files that survive crashes

A directory maps names to files. A file is written by appending to it, and syncing makes
what it holds durable. A program changes a directory by a list of calls, one after the
other, and the bytes of an append may reach the file in pieces; a program that is stopped
has made some of its calls, perhaps the last only in part (`Dir.Reaches`), and every file
keeps all it has got.
-/

namespace TLevelDB.Storage

variable {N β : Type}

/-! ### Files -/

/-- A file: the bytes that are durable, and those after them. -/
structure File (β : Type) where
  /-- The bytes up to the last sync. -/
  synced : List β
  /-- The bytes appended since. -/
  unsynced : List β

namespace File

/-- A new file. -/
def empty : File β := ⟨[], []⟩

/-- What a reader finds. -/
def bytes (f : File β) : List β := f.synced ++ f.unsynced

/-- The file with more bytes. -/
def append (f : File β) (bs : List β) : File β := ⟨f.synced, f.unsynced ++ bs⟩

/-- The file after a sync. -/
def sync (f : File β) : File β := ⟨f.bytes, []⟩

@[simp] theorem bytes_empty : (empty : File β).bytes = [] := rfl

@[simp] theorem bytes_append (f : File β) (bs : List β) : (f.append bs).bytes = f.bytes ++ bs := by
  simp [bytes, append]

@[simp] theorem bytes_sync (f : File β) : f.sync.bytes = f.bytes := by simp [bytes, sync]

@[simp] theorem synced_append (f : File β) (bs : List β) : (f.append bs).synced = f.synced := rfl

@[simp] theorem synced_sync (f : File β) : f.sync.synced = f.bytes := rfl

@[simp] theorem unsynced_sync (f : File β) : f.sync.unsynced = [] := rfl

theorem append_append (f : File β) (a b : List β) : (f.append a).append b = f.append (a ++ b) := by
  simp [append]

theorem synced_isPrefix (f : File β) : f.synced <+: f.bytes := ⟨f.unsynced, rfl⟩

end File

/-! ### Directories -/

/-- A directory: the file of each name, and the names that have one. -/
structure Dir (N β : Type) where
  /-- The file of a name. -/
  get : N → Option (File β)
  /-- The names, in some order. -/
  children : List N
  nodup : children.Nodup
  mem_children : ∀ n, n ∈ children ↔ (get n).isSome = true

/-- A directory without files. -/
def Dir.empty : Dir N β := ⟨fun _ => none, [], List.nodup_nil, by simp⟩

/-- What a reader finds in the file of a name. -/
def Dir.bytes (d : Dir N β) (n : N) : Option (List β) := (d.get n).map File.bytes

/-- A call that changes a directory. -/
inductive Call (N β : Type) where
  /-- A new file, in place of one of that name. -/
  | create (n : N)
  /-- More bytes. -/
  | append (n : N) (bs : List β)
  /-- All bytes become durable. -/
  | sync (n : N)
  /-- The file takes the place of another. -/
  | rename (n target : N)
  /-- The file goes. -/
  | remove (n : N)

/-- The call may change the file of a name. -/
def Call.Writes (n : N) : Call N β → Prop
  | .create m => m = n
  | .append m _ => m = n
  | .sync m => m = n
  | .rename m target => m = n ∨ target = n
  | .remove m => m = n

/-- The call only adds to the file of a name. -/
def Call.Grows (n : N) : Call N β → Prop
  | .append _ _ => True
  | .sync _ => True
  | c => ¬ c.Writes n

variable [DecidableEq N]

namespace Dir

/-- The directory with a file of that name. -/
def set (d : Dir N β) (n : N) (f : File β) : Dir N β where
  get := Function.update d.get n (some f)
  children := if n ∈ d.children then d.children else n :: d.children
  nodup := by
    split_ifs with h
    · exact d.nodup
    · exact List.nodup_cons.mpr ⟨h, d.nodup⟩
  mem_children m := by
    by_cases hm : m = n
    · subst hm
      by_cases h : m ∈ d.children <;> simp [h]
    · by_cases h : n ∈ d.children <;> simp [h, hm, d.mem_children]

/-- The directory without a file of that name. -/
def remove (d : Dir N β) (n : N) : Dir N β where
  get := Function.update d.get n none
  children := d.children.erase n
  nodup := d.nodup.erase n
  mem_children m := by
    by_cases hm : m = n
    · subst hm
      simp [d.nodup.mem_erase_iff]
    · simp [d.nodup.mem_erase_iff, hm, d.mem_children]

@[simp] theorem get_set (d : Dir N β) (n m : N) (f : File β) :
    (d.set n f).get m = if m = n then some f else d.get m := Function.update_apply _ _ _ _

@[simp] theorem get_remove (d : Dir N β) (n m : N) : (d.remove n).get m = if m = n then none else d.get m :=
  Function.update_apply _ _ _ _

/-- The effect of a call. A call on a file that is not there does nothing. -/
def exec (d : Dir N β) : Call N β → Dir N β
  | .create n => d.set n File.empty
  | .append n bs => (d.get n).elim d fun f => d.set n (f.append bs)
  | .sync n => (d.get n).elim d fun f => d.set n f.sync
  | .rename n target => (d.get n).elim d fun f => (d.remove n).set target f
  | .remove n => d.remove n

/-- The effect of calls one after the other. -/
def execAll (d : Dir N β) (calls : List (Call N β)) : Dir N β := calls.foldl exec d

@[simp] theorem execAll_nil (d : Dir N β) : d.execAll [] = d := rfl

@[simp] theorem execAll_cons (d : Dir N β) (c : Call N β) (calls : List (Call N β)) :
    d.execAll (c :: calls) = (d.exec c).execAll calls := rfl

theorem execAll_append (d : Dir N β) (calls calls' : List (Call N β)) :
    d.execAll (calls ++ calls') = (d.execAll calls).execAll calls' := List.foldl_append

@[simp] theorem get_exec_create (d : Dir N β) (n m : N) :
    (d.exec (.create n)).get m = if m = n then some File.empty else d.get m := get_set _ _ _ _

@[simp] theorem get_exec_remove (d : Dir N β) (n m : N) :
    (d.exec (.remove n)).get m = if m = n then none else d.get m := get_remove _ _ _

@[simp] theorem get_exec_append (d : Dir N β) (n m : N) (bs : List β) :
    (d.exec (.append n bs)).get m = if m = n then (d.get n).map (File.append · bs) else d.get m := by
  cases h : d.get n with
  | none =>
    simp only [exec, h, Option.elim_none, Option.map_none]
    split_ifs with hm
    · rw [hm, h]
    · rfl
  | some f => simp [exec, h]

@[simp] theorem get_exec_sync (d : Dir N β) (n m : N) :
    (d.exec (.sync n)).get m = if m = n then (d.get n).map File.sync else d.get m := by
  cases h : d.get n with
  | none =>
    simp only [exec, h, Option.elim_none, Option.map_none]
    split_ifs with hm
    · rw [hm, h]
    · rfl
  | some f => simp [exec, h]

variable {f : File β} {c : Call N β}

theorem get_exec_rename {d : Dir N β} {n target : N} (h : d.get n = some f) (m : N) :
    (d.exec (.rename n target)).get m = if m = target then some f else if m = n then none else d.get m := by
  simp [exec, h]

theorem get_exec_of_not_writes {n : N} (h : ¬ c.Writes n) (d : Dir N β) : (d.exec c).get n = d.get n := by
  cases c with
  | create m => simp only [get_exec_create, if_neg (Ne.symm h)]
  | append m bs => simp only [get_exec_append, if_neg (Ne.symm h)]
  | sync m => simp only [get_exec_sync, if_neg (Ne.symm h)]
  | remove m => simp only [get_exec_remove, if_neg (Ne.symm h)]
  | rename m target =>
    simp only [Call.Writes, not_or] at h
    cases hm : d.get m with
    | none => simp [exec, hm]
    | some f => rw [get_exec_rename hm, if_neg (Ne.symm h.2), if_neg (Ne.symm h.1)]

theorem get_execAll_of_not_writes {calls : List (Call N β)} {n : N} (h : ∀ c ∈ calls, ¬ c.Writes n) (d : Dir N β) :
    (d.execAll calls).get n = d.get n := by
  induction calls generalizing d with
  | nil => rfl
  | cons c calls ih =>
    obtain ⟨hc, hcalls⟩ := List.forall_mem_cons.mp h
    rw [execAll_cons, ih hcalls, get_exec_of_not_writes hc]

theorem exec_append_append (d : Dir N β) (n : N) (a b : List β) :
    (d.exec (.append n a)).exec (.append n b) = d.exec (.append n (a ++ b)) := by
  cases h : d.get n with
  | none => simp [exec, h]
  | some f =>
    have hmem : n ∈ d.children := (d.mem_children n).mpr (by simp [h])
    simp [exec, h, set, hmem, File.append_append, Function.update_idem]

/-! ### Files that grow -/

/-- What a call that only adds to a file leaves of it. -/
theorem exec_grows {n : N} {d : Dir N β} (hc : c.Grows n) (hf : d.get n = some f) :
    ∃ f', (d.exec c).get n = some f' ∧ f.bytes <+: f'.bytes ∧ f.synced <+: f'.synced := by
  by_cases hw : c.Writes n
  · cases c with
    | create m => exact absurd hw hc
    | append m bs =>
      obtain rfl : m = n := hw
      exact ⟨f.append bs, by simp [hf], by simp, by simp⟩
    | sync m =>
      obtain rfl : m = n := hw
      exact ⟨f.sync, by simp [hf], by simp, f.synced_isPrefix⟩
    | rename m target => exact absurd hw hc
    | remove m => exact absurd hw hc
  · exact ⟨f, by rw [get_exec_of_not_writes hw, hf], List.prefix_rfl, List.prefix_rfl⟩

theorem execAll_grows {calls : List (Call N β)} {n : N} {d : Dir N β} (hc : ∀ c ∈ calls, c.Grows n)
    (hf : d.get n = some f) :
    ∃ f', (d.execAll calls).get n = some f' ∧ f.bytes <+: f'.bytes ∧ f.synced <+: f'.synced := by
  induction calls generalizing d f with
  | nil => exact ⟨f, hf, List.prefix_rfl, List.prefix_rfl⟩
  | cons c calls ih =>
    obtain ⟨hhead, htail⟩ := List.forall_mem_cons.mp hc
    obtain ⟨f₁, hf₁, hbytes₁, hsynced₁⟩ := exec_grows hhead hf
    obtain ⟨f₂, hf₂, hbytes₂, hsynced₂⟩ := ih htail hf₁
    exact ⟨f₂, hf₂, hbytes₁.trans hbytes₂, hsynced₁.trans hsynced₂⟩

/-! ### Programs that are stopped -/

/-- From `d` with these calls to make, the program may be at `d'` with those left. -/
inductive Reaches (d : Dir N β) (calls : List (Call N β)) : Dir N β → List (Call N β) → Prop where
  /-- It has made none. -/
  | refl : Reaches d calls d calls
  /-- It makes the next call. -/
  | call {d' : Dir N β} {c : Call N β} {rest : List (Call N β)} :
      Reaches d calls d' (c :: rest) → Reaches d calls (d'.exec c) rest
  /-- Some bytes of the next append reach the file. -/
  | part {d' : Dir N β} {n : N} {a b : List β} {rest : List (Call N β)} :
      Reaches d calls d' (.append n (a ++ b) :: rest) → Reaches d calls (d'.exec (.append n a)) (.append n b :: rest)

variable {d d' : Dir N β} {calls calls' rest : List (Call N β)} {n : N}

/-- What the program ends with does not depend on how far it is. -/
theorem Reaches.execAll_eq (h : Reaches d calls d' rest) : d'.execAll rest = d.execAll calls := by
  induction h with
  | refl => rfl
  | call h ih => exact ih
  | part h ih => rw [← ih, execAll_cons, execAll_cons, exec_append_append]

/-- A program in two parts is in the first or in the second. -/
theorem Reaches.of_append (h : Reaches d (calls ++ calls') d' rest) :
    (∃ rest', Reaches d calls d' rest' ∧ rest = rest' ++ calls') ∨ Reaches (d.execAll calls) calls' d' rest := by
  induction h with
  | refl => exact Or.inl ⟨calls, .refl, rfl⟩
  | @call e c rest h ih =>
    rcases ih with ⟨rest', hr, heq⟩ | hr
    · cases rest' with
      | nil =>
        have hd : e = d.execAll calls := hr.execAll_eq
        subst hd
        rw [List.nil_append] at heq
        subst heq
        exact Or.inr Reaches.refl.call
      | cons c' rest' =>
        obtain ⟨rfl, rfl⟩ := List.cons.inj heq
        exact Or.inl ⟨rest', hr.call, rfl⟩
    · exact Or.inr hr.call
  | @part e n a b rest h ih =>
    rcases ih with ⟨rest', hr, heq⟩ | hr
    · cases rest' with
      | nil =>
        have hd : e = d.execAll calls := hr.execAll_eq
        subst hd
        rw [List.nil_append] at heq
        subst heq
        exact Or.inr Reaches.refl.part
      | cons c' rest' =>
        obtain ⟨rfl, rfl⟩ := List.cons.inj heq
        exact Or.inl ⟨_, hr.part, rfl⟩
    · exact Or.inr hr.part

/-- A program of one call that is not an append has made it or not. -/
theorem Reaches.of_singleton (h : Reaches d [c] d' rest) (hc : ∀ n bs, c ≠ .append n bs) :
    d' = d ∧ rest = [c] ∨ d' = d.exec c ∧ rest = [] := by
  induction h with
  | refl => exact Or.inl ⟨rfl, rfl⟩
  | call h ih =>
    obtain ⟨rfl, heq⟩ | ⟨-, heq⟩ := ih
    · obtain ⟨rfl, rfl⟩ := List.cons.inj heq
      exact Or.inr ⟨rfl, rfl⟩
    · cases heq
  | part h ih =>
    obtain ⟨-, heq⟩ | ⟨-, heq⟩ := ih
    · exact absurd (List.cons.inj heq).1.symm (hc _ _)
    · cases heq

theorem Reaches.get_eq (h : Reaches d calls d' rest) (hn : ∀ c ∈ calls, ¬ c.Writes n) :
    d'.get n = d.get n ∧ ∀ c ∈ rest, ¬ c.Writes n := by
  induction h with
  | refl => exact ⟨rfl, hn⟩
  | call h ih =>
    obtain ⟨hc, hrest⟩ := List.forall_mem_cons.mp ih.2
    exact ⟨(get_exec_of_not_writes hc _).trans ih.1, hrest⟩
  | @part e m a b rest h ih =>
    obtain ⟨hc, hrest⟩ := List.forall_mem_cons.mp ih.2
    have hm : ¬ m = n := hc
    exact ⟨(get_exec_of_not_writes (c := .append m a) hm _).trans ih.1, List.forall_mem_cons.mpr ⟨hm, hrest⟩⟩

/-- A file to which the program only adds is between what it was and what it will be. -/
theorem Reaches.grows (h : Reaches d calls d' rest) (hn : ∀ c ∈ calls, c.Grows n) (hf : d.get n = some f) :
    ∃ f' f'', d'.get n = some f' ∧ (d.execAll calls).get n = some f'' ∧ f.bytes <+: f'.bytes ∧ f'.bytes <+: f''.bytes := by
  have hreached : ∃ f', d'.get n = some f' ∧ f.bytes <+: f'.bytes ∧ ∀ c ∈ rest, c.Grows n := by
    induction h with
    | refl => exact ⟨f, hf, List.prefix_rfl, hn⟩
    | call h ih =>
      obtain ⟨f', hf', hle, hrest⟩ := ih
      obtain ⟨hc, hrest⟩ := List.forall_mem_cons.mp hrest
      obtain ⟨f'', hf'', hle', -⟩ := exec_grows hc hf'
      exact ⟨f'', hf'', hle.trans hle', hrest⟩
    | part h ih =>
      obtain ⟨f', hf', hle, hrest⟩ := ih
      obtain ⟨-, hrest⟩ := List.forall_mem_cons.mp hrest
      obtain ⟨f'', hf'', hle', -⟩ := exec_grows (c := .append _ _) trivial hf'
      exact ⟨f'', hf'', hle.trans hle', List.forall_mem_cons.mpr ⟨trivial, hrest⟩⟩
  obtain ⟨f', hf', hle, hrest⟩ := hreached
  obtain ⟨f'', hf'', hle', -⟩ := execAll_grows hrest hf'
  exact ⟨f', f'', hf', h.execAll_eq ▸ hf'', hle, hle'⟩

end Dir

end TLevelDB.Storage
