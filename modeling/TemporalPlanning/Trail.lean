/-!
# Values with a trail

A search changes its partial plan step by step and has to take steps back. `Trailed σ χ` is a value
of type `σ` together with the changes that were made to it, each kept in the form `χ` in which it
can be reverted. A *mark* is a length of the trail, and `undoTo` reverts the changes made since.

`undoTo_mark` says that going back to the present does nothing, and `undoTo_perform` that going back
past one more change is the same as going back from before it, provided that the change can be
reverted exactly.
-/

namespace TemporalPlanning

/-- Changes of type `χ` to values of type `σ` that can be reverted. -/
class Revertible (σ : outParam Type) (χ : Type) where
  /-- The value before a change, from the value after it. -/
  revert : χ → σ → σ

/-- A value with the changes that led to it, the newest last. -/
structure Trailed (σ χ : Type) where
  value : σ
  trail : Array χ

namespace Trailed

variable {σ χ : Type}

/-- A value with nothing to take back. -/
def fresh (value : σ) : Trailed σ χ := ⟨value, #[]⟩

/-- Where the trail stands. -/
def mark (t : Trailed σ χ) : Nat := t.trail.size

/-- Makes a change and keeps how to revert it. -/
def perform (t : Trailed σ χ) (change : χ) (f : σ → σ) : Trailed σ χ :=
  ⟨f t.value, t.trail.push change⟩

variable [Revertible σ χ]

/-- Reverts the last `n` changes. -/
def rollback : Nat → Trailed σ χ → Trailed σ χ
  | 0, t => t
  | n + 1, ⟨value, trail⟩ =>
    match trail.back? with
    | some change => rollback n ⟨Revertible.revert change value, trail.pop⟩
    | none => ⟨value, trail⟩

/-- Reverts all changes since a mark; there is nothing to go back to when the mark lies ahead. -/
def undoTo? (t : Trailed σ χ) (mark : Nat) : Option (Trailed σ χ) :=
  if mark ≤ t.trail.size then some (rollback (t.trail.size - mark) t) else none

theorem undoTo?_mark (t : Trailed σ χ) : t.undoTo? t.mark = some t := by
  simp [undoTo?, mark, rollback]

theorem undoTo?_perform {t : Trailed σ χ} {change : χ} {f : σ → σ} {m : Nat} (hm : m ≤ t.mark)
    (h : Revertible.revert change (f t.value) = t.value) :
    (t.perform change f).undoTo? m = t.undoTo? m := by
  have hm' : m ≤ t.trail.size := hm
  have hsize : t.trail.size + 1 - m = (t.trail.size - m) + 1 := by omega
  simp [undoTo?, perform, hm', hsize, rollback, h, Nat.le_succ_of_le hm']

end Trailed

end TemporalPlanning
