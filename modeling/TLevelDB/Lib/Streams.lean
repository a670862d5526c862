import Mathlib.Data.List.Basic
import Mathlib.Data.List.Infix

/-!
# Streams of items

A string that holds one item after the other, with no sign where it ends: a reader takes
items from the front for as long as it can. What can be read does not depend on who reads, so
the items of one reader that got stuck begin with those of any other (`Reads.isPrefix`).
-/

namespace TLevelDB.Streams

variable {α β : Type}

/-- These items are read from the front of a string, and the rest is left. -/
inductive Reads (read : List β → Option (α × List β)) : List β → List α → List β → Prop
  | nil (s : List β) : Reads read s [] s
  | cons {s rest rest' : List β} {a : α} {as : List α} : read s = some (a, rest) → Reads read rest as rest' →
      Reads read s (a :: as) rest'

variable {read : List β → Option (α × List β)} {s rest rest' : List β} {as bs : List α}

/-- Whoever can read no more has read all that can be read. -/
theorem Reads.isPrefix (h : Reads read s as rest) (hstuck : read rest = none) (h' : Reads read s bs rest') : bs <+: as := by
  induction h generalizing bs with
  | nil s =>
    cases h' with
    | nil => exact List.prefix_rfl
    | cons hread _ => rw [hstuck] at hread; cases hread
  | cons hread _ ih =>
    cases h' with
    | nil => exact List.nil_prefix
    | cons hread' hrest' =>
      rw [hread] at hread'
      cases hread'
      exact List.cons_prefix_cons.mpr ⟨rfl, ih hstuck hrest'⟩

/-- Two readers that can read no more have read the same. -/
theorem Reads.eq_of_stuck (h : Reads read s as rest) (hstuck : read rest = none) (h' : Reads read s bs rest')
    (hstuck' : read rest' = none) : as = bs ∧ rest = rest' := by
  induction h generalizing bs with
  | nil s =>
    cases h' with
    | nil => exact ⟨rfl, rfl⟩
    | cons hread _ => rw [hstuck] at hread; cases hread
  | cons hread _ ih =>
    cases h' with
    | nil => rw [hstuck'] at hread; cases hread
    | cons hread' hrest' =>
      rw [hread] at hread'
      cases hread'
      obtain ⟨rfl, hrest⟩ := ih hstuck hrest'
      exact ⟨rfl, hrest⟩

/-- Items that were written one after the other are read back, whatever follows. -/
theorem reads_flatMap {encode : α → List β} (h : ∀ a ∈ as, ∀ rest, read (encode a ++ rest) = some (a, rest))
    (rest : List β) : Reads read (as.flatMap encode ++ rest) as rest := by
  induction as with
  | nil => exact .nil rest
  | cons a as ih =>
    rw [List.flatMap_cons, List.append_assoc]
    exact .cons (h a List.mem_cons_self _) (ih fun b hb => h b (List.mem_cons_of_mem a hb))

/-! ### What is left -/

section Leaves

variable {γ : Type} {n : ℕ} {o o' : Option (α × List β)}

/-- If an item is read, less than `n` is left. -/
def Leaves (n : ℕ) (o : Option (α × List β)) : Prop := ∀ r ∈ o, r.2.length < n

theorem Leaves.none : Leaves n (none : Option (α × List β)) := by rintro _ ⟨⟩

theorem Leaves.some {a : α} (h : rest.length < n) : Leaves n (some (a, rest)) := fun _ hr => Option.some.inj hr ▸ h

theorem Leaves.ite {p : Prop} [Decidable p] (h : Leaves n o) (h' : Leaves n o') : Leaves n (if p then o else o') := by
  split
  · exact h
  · exact h'

/-- Two items are read, one after the other. -/
theorem Leaves.bind {f : α × List β → Option (γ × List β)} (h : Leaves n o)
    (hf : ∀ a rest, rest.length < n → Leaves n (f (a, rest))) : Leaves n (o.bind f) := by
  intro r hr
  obtain ⟨⟨a, rest⟩, ho, hr⟩ := Option.bind_eq_some_iff.mp hr
  exact hf a rest (h _ ho) r hr

end Leaves

end TLevelDB.Streams
