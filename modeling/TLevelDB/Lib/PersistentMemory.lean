import Mathlib.Logic.Function.Basic
import Mathlib.Data.List.Basic
import Mathlib.Data.Set.Basic

/-!
# Persistent memory and power failure

A machine whose memory is made of cache lines that keep their contents over a
power failure, but not at once: a store is seen by later loads immediately and
reaches the medium at an unknown moment, no later than the first *drain* that
follows a *flush* of its line. Lines reach the medium independently of each
other and in any order.

## The model

`Pmem V` keeps, for each line, what a load sees (`mem`), the earlier contents
the medium may still hold instead (`older`), and, when a flush of the line is
outstanding, those of them that are not older than the flush (`sinceFlush`). A
power failure leaves in each line its current content or one of the `older`
ones (`Pmem.Image`).

`Prog V S` is a straight-line program over such a memory and an auxiliary state
`S`, which a program changes in one indivisible step (`aux`). `Prog.run` is its
effect when the power holds, and `Prog.points` lists the states it goes through,
each of which is a point at which the power may fail.
-/

namespace TLevelDB.PersistentMemory

variable {L : Type} {V : L → Type} {S : Type}

/-! ### The memory -/

/-- A memory of lines `l : L` with contents `V l`. -/
@[ext]
structure Pmem (V : L → Type) where
  /-- What a load of the line sees. -/
  mem : ∀ l, V l
  /-- The earlier contents that the medium may still hold. -/
  older : ∀ l, List (V l)
  /-- When the line has been flushed: the earlier contents not older than the flush. -/
  sinceFlush : ∀ l, Option (List (V l))

/-- What a power failure may leave: every line holds its current content or one
of those the medium may still hold. -/
def Pmem.Image (p : Pmem V) (d : ∀ l, V l) : Prop := ∀ l, d l = p.mem l ∨ d l ∈ p.older l

/-- A memory in which every line holds the given content durably. -/
def Pmem.settled (m : ∀ l, V l) : Pmem V := ⟨m, fun _ => [], fun _ => none⟩

/-- No store is on its way to the medium. -/
def Pmem.Settled (p : Pmem V) : Prop := p = Pmem.settled p.mem

theorem Pmem.Settled.image {p : Pmem V} (h : p.Settled) {d : ∀ l, V l} (hd : p.Image d) : d = p.mem := by
  funext l
  rcases hd l with hl | hl
  · exact hl
  · rw [h] at hl
    simp [Pmem.settled] at hl

variable [DecidableEq L]

/-- A store: loads see it from now on, and the medium may or may not. -/
def Pmem.store (p : Pmem V) (l : L) (v : V l) : Pmem V where
  mem := Function.update p.mem l v
  older := Function.update p.older l (p.mem l :: p.older l)
  sinceFlush := Function.update p.sinceFlush l ((p.sinceFlush l).map (p.mem l :: ·))

/-- A flush of a line: from now on only contents not older than the present one count. -/
def Pmem.flush (p : Pmem V) (l : L) : Pmem V :=
  { p with sinceFlush := Function.update p.sinceFlush l (some []) }

/-- A drain: the flushed lines have reached the medium. -/
def Pmem.drain (p : Pmem V) : Pmem V where
  mem := p.mem
  older l := (p.sinceFlush l).getD (p.older l)
  sinceFlush _ := none

/-- A store that is durable when it returns. -/
def Pmem.persist (p : Pmem V) (l : L) (v : V l) : Pmem V where
  mem := Function.update p.mem l v
  older := Function.update p.older l []
  sinceFlush := Function.update p.sinceFlush l none

@[simp] theorem Pmem.store_mem (p : Pmem V) (l : L) (v : V l) :
    (p.store l v).mem = Function.update p.mem l v := rfl

@[simp] theorem Pmem.store_older (p : Pmem V) (l : L) (v : V l) :
    (p.store l v).older = Function.update p.older l (p.mem l :: p.older l) := rfl

@[simp] theorem Pmem.flush_mem (p : Pmem V) (l : L) : (p.flush l).mem = p.mem := rfl

@[simp] theorem Pmem.flush_older (p : Pmem V) (l : L) : (p.flush l).older = p.older := rfl

omit [DecidableEq L] in
@[simp] theorem Pmem.drain_mem (p : Pmem V) : p.drain.mem = p.mem := rfl

@[simp] theorem Pmem.persist_mem (p : Pmem V) (l : L) (v : V l) :
    (p.persist l v).mem = Function.update p.mem l v := rfl

@[simp] theorem Pmem.persist_older (p : Pmem V) (l : L) (v : V l) :
    (p.persist l v).older = Function.update p.older l [] := rfl

omit [DecidableEq L] in
theorem Pmem.settled_iff {p : Pmem V} : p.Settled ↔ ∀ l, p.older l = [] ∧ p.sinceFlush l = none := by
  constructor
  · intro h l
    rw [h]
    exact ⟨rfl, rfl⟩
  · intro h
    exact Pmem.ext rfl (funext fun l => (h l).1) (funext fun l => (h l).2)

theorem Pmem.Settled.persist {p : Pmem V} (h : p.Settled) (l : L) (v : V l) : (p.persist l v).Settled := by
  rw [Pmem.settled_iff] at h ⊢
  intro k
  by_cases hk : k = l
  · subst hk; simp [Pmem.persist]
  · simp [Pmem.persist, Function.update_of_ne hk, h k]

omit [DecidableEq L] in
/-- After a drain nothing is on its way, if every line with a store on its way has
been flushed since. -/
theorem Pmem.settled_drain {p : Pmem V} (h : ∀ l, p.older l = [] ∧ p.sinceFlush l = none ∨ p.sinceFlush l = some []) :
    p.drain.Settled := by
  rw [Pmem.settled_iff]
  intro l
  rcases h l with ⟨ho, hs⟩ | hs <;> simp [Pmem.drain, *]

/-! ### Programs -/

/-- A memory together with the auxiliary state. -/
@[ext]
structure Machine (V : L → Type) (S : Type) where
  /-- The persistent memory. -/
  pm : Pmem V
  /-- The auxiliary state. -/
  aux : S

/-- A program: its primitive operations in order. -/
inductive Prog (V : L → Type) (S : Type) where
  /-- Nothing more to do. -/
  | done
  /-- Load a line. -/
  | load (l : L) (k : V l → Prog V S)
  /-- Store to a line. -/
  | store (l : L) (v : V l) (k : Prog V S)
  /-- Flush a line. -/
  | flush (l : L) (k : Prog V S)
  /-- Wait for the flushed lines to reach the medium. -/
  | drain (k : Prog V S)
  /-- Store to a line, durably. -/
  | persist (l : L) (v : V l) (k : Prog V S)
  /-- Look at the auxiliary state. -/
  | ask (k : S → Prog V S)
  /-- Change the auxiliary state, indivisibly. -/
  | aux (f : S → S) (k : Prog V S)

namespace Prog

/-- The state in which a program ends, if the power holds. -/
def run : Prog V S → Machine V S → Machine V S
  | done, m => m
  | load l k, m => (k (m.pm.mem l)).run m
  | store l v k, m => k.run { m with pm := m.pm.store l v }
  | flush l k, m => k.run { m with pm := m.pm.flush l }
  | drain k, m => k.run { m with pm := m.pm.drain }
  | persist l v k, m => k.run { m with pm := m.pm.persist l v }
  | ask k, m => (k m.aux).run m
  | aux f k, m => k.run { m with aux := f m.aux }

/-- The states a program goes through, from the one it starts in to the one it ends
in: the power may fail in any of them. -/
def points : Prog V S → Machine V S → List (Machine V S)
  | done, m => [m]
  | load l k, m => (k (m.pm.mem l)).points m
  | store l v k, m => m :: k.points { m with pm := m.pm.store l v }
  | flush l k, m => m :: k.points { m with pm := m.pm.flush l }
  | drain k, m => m :: k.points { m with pm := m.pm.drain }
  | persist l v k, m => m :: k.points { m with pm := m.pm.persist l v }
  | ask k, m => (k m.aux).points m
  | aux f k, m => m :: k.points { m with aux := f m.aux }

/-- The final state is one of the points: a crash after the program counts too. -/
theorem run_mem_points (p : Prog V S) (m : Machine V S) : p.run m ∈ p.points m := by
  induction p generalizing m with
  | done => simp [run, points]
  | load l k ih => exact ih _ m
  | ask k ih => exact ih _ m
  | store l v k ih => exact List.mem_cons_of_mem _ (ih _)
  | flush l k ih => exact List.mem_cons_of_mem _ (ih _)
  | drain k ih => exact List.mem_cons_of_mem _ (ih _)
  | persist l v k ih => exact List.mem_cons_of_mem _ (ih _)
  | aux f k ih => exact List.mem_cons_of_mem _ (ih _)

/-- Along a run from `m` the program stores to each line `l` only contents in `W l`,
and leaves the auxiliary state only with values in `Q`. -/
def Within (W : ∀ l, Set (V l)) (Q : Set S) : Prog V S → Machine V S → Prop
  | done, _ => True
  | load l k, m => (k (m.pm.mem l)).Within W Q m
  | store l v k, m => v ∈ W l ∧ k.Within W Q { m with pm := m.pm.store l v }
  | flush l k, m => k.Within W Q { m with pm := m.pm.flush l }
  | drain k, m => k.Within W Q { m with pm := m.pm.drain }
  | persist l v k, m => v ∈ W l ∧ k.Within W Q { m with pm := m.pm.persist l v }
  | ask k, m => (k m.aux).Within W Q m
  | aux f k, m => f m.aux ∈ Q ∧ k.Within W Q { m with aux := f m.aux }

end Prog

/-- Whatever the medium holds in a line `l` is in `W l`, and the same goes for a line
that is being flushed; the auxiliary state is in `Q`. -/
structure Machine.Within (W : ∀ l, Set (V l)) (Q : Set S) (m : Machine V S) : Prop where
  mem : ∀ l, m.pm.mem l ∈ W l
  older : ∀ l, ∀ v ∈ m.pm.older l, v ∈ W l
  sinceFlush : ∀ l vs, m.pm.sinceFlush l = some vs → ∀ v ∈ vs, v ∈ W l
  aux : m.aux ∈ Q

section Within

variable {W : ∀ l, Set (V l)} {Q : Set S} {m : Machine V S}

omit [DecidableEq L] in
/-- Nothing else is found after a power failure. -/
theorem Machine.Within.image (h : m.Within W Q) {d : ∀ l, V l} (hd : m.pm.Image d) (l : L) : d l ∈ W l := by
  rcases hd l with hl | hl
  · exact hl ▸ h.mem l
  · exact h.older l _ hl

theorem Machine.Within.store (h : m.Within W Q) {l : L} {v : V l} (hv : v ∈ W l) :
    Machine.Within W Q { m with pm := m.pm.store l v } := by
  constructor
  · intro k
    by_cases hk : k = l
    · subst hk; simpa using hv
    · simpa [hk] using h.mem k
  · intro k w hw
    by_cases hk : k = l
    · subst hk
      simp only [Pmem.store_older, Function.update_self, List.mem_cons] at hw
      rcases hw with rfl | hw
      · exact h.mem k
      · exact h.older k w hw
    · exact h.older k w (by simpa [hk] using hw)
  · intro k vs hvs w hw
    by_cases hk : k = l
    · subst hk
      simp only [Pmem.store, Function.update_self, Option.map_eq_some_iff] at hvs
      obtain ⟨us, hus, rfl⟩ := hvs
      rcases List.mem_cons.mp hw with rfl | hw
      · exact h.mem k
      · exact h.sinceFlush k us hus w hw
    · exact h.sinceFlush k vs (by simpa [Pmem.store, hk] using hvs) w hw
  · exact h.aux

theorem Machine.Within.flush (h : m.Within W Q) (l : L) :
    Machine.Within W Q { m with pm := m.pm.flush l } := by
  refine ⟨h.mem, h.older, fun k vs hvs w hw => ?_, h.aux⟩
  by_cases hk : k = l
  · subst hk
    simp only [Pmem.flush, Function.update_self, Option.some.injEq] at hvs
    simp [← hvs] at hw
  · exact h.sinceFlush k vs (by simpa [Pmem.flush, hk] using hvs) w hw

omit [DecidableEq L] in
theorem Machine.Within.drain (h : m.Within W Q) : Machine.Within W Q { m with pm := m.pm.drain } := by
  refine ⟨h.mem, fun k w hw => ?_, fun k vs hvs => by simp [Pmem.drain] at hvs, h.aux⟩
  cases hs : m.pm.sinceFlush k with
  | none => exact h.older k w (by simpa [Pmem.drain, hs] using hw)
  | some vs => exact h.sinceFlush k vs hs w (by simpa [Pmem.drain, hs] using hw)

/-- Of a line that is persisted, nothing is left of what it held. -/
theorem Machine.Within.persist {W' : ∀ l, Set (V l)} (h : m.Within W Q) {l : L} {v : V l} (hv : v ∈ W' l)
    (hW : ∀ k, k ≠ l → W k ⊆ W' k) : Machine.Within W' Q { m with pm := m.pm.persist l v } := by
  constructor
  · intro k
    by_cases hk : k = l
    · subst hk; simpa using hv
    · simpa [hk] using hW k hk (h.mem k)
  · intro k w hw
    by_cases hk : k = l
    · subst hk; simp at hw
    · exact hW k hk (h.older k w (by simpa [hk] using hw))
  · intro k vs hvs w hw
    by_cases hk : k = l
    · subst hk; simp [Pmem.persist] at hvs
    · exact hW k hk (h.sinceFlush k vs (by simpa [Pmem.persist, hk] using hvs) w hw)
  · exact h.aux

omit [DecidableEq L] in
theorem Machine.within_settled {mem : ∀ l, V l} {a : S} (hm : ∀ l, mem l ∈ W l) (ha : a ∈ Q) :
    Machine.Within W Q ⟨Pmem.settled mem, a⟩ :=
  ⟨hm, fun _ _ hv => by simp [Pmem.settled] at hv, fun _ _ hvs => by simp [Pmem.settled] at hvs, ha⟩

/-- **The rule of power failure**: a program that stores only contents in `W` goes
only through states in which the medium holds contents in `W`. -/
theorem Prog.within_points {p : Prog V S} (hp : p.Within W Q m) (hm : m.Within W Q) :
    ∀ c ∈ p.points m, c.Within W Q := by
  induction p generalizing m with
  | done => simpa [Prog.points] using hm
  | load l k ih => exact ih _ hp hm
  | ask k ih => exact ih _ hp hm
  | store l v k ih => exact List.forall_mem_cons.mpr ⟨hm, ih hp.2 (hm.store hp.1)⟩
  | flush l k ih => exact List.forall_mem_cons.mpr ⟨hm, ih hp (hm.flush l)⟩
  | drain k ih => exact List.forall_mem_cons.mpr ⟨hm, ih hp hm.drain⟩
  | persist l v k ih => exact List.forall_mem_cons.mpr ⟨hm, ih hp.2 (hm.persist hp.1 fun _ _ => subset_rfl)⟩
  | aux f k ih => exact List.forall_mem_cons.mpr ⟨hm, ih hp.2 ⟨hm.mem, hm.older, hm.sinceFlush, hp.1⟩⟩

end Within

end TLevelDB.PersistentMemory
