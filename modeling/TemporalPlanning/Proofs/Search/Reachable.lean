import TemporalPlanning.Proofs.Search.Run
import TemporalPlanning.Proofs.Search.Start
import TemporalPlanning.Proofs.Search.Steps

/-!
# Reachable partial plans

A partial plan is reachable (`Task.Reachable`) if repairs lead to it from the first one: each is
proposed for some flaw, the look-ahead finds room for it, and it can be carried out. Reachable
partial plans of a loaded model are tidy (`Task.Reachable.tidy`).

The search takes the flaws in turn. Where it gets to after some repairs that it has not given up
(`Task.Path`) is reachable, and every plan is read off such a partial plan (`Task.exists_path`).
-/

namespace TemporalPlanning

namespace Task

/-- Partial plans to which repairs lead from the first one. -/
inductive Reachable (task : Task) : PartialPlan → Prop
  | start {s : PartialPlan} (hs : task.start = .done () s) : Reachable task s
  | apply {s s' : PartialPlan} {flaw : Flaw} {ds : List Decision} {d : Decision}
      (h : Reachable task s) (hds : task.repairs s flaw = .ok ds) (hd : d ∈ ds)
      (hadmits : admits s d = .ok true) (hs : task.apply d s = .done () s') : Reachable task s'

variable {task : Task} {clock : Clock} {s s₁ : PartialPlan} {frame : Frame} {cs : Candidates}

/-- **A reachable partial plan is tidy.** -/
theorem Reachable.tidy (h : task.Reachable s) (hm : task.model.WellFormed) :
    s.Tidy task.model fun i => (task.model.factsOn i).length := by
  induction h with
  | start hs => exact tidy_of_start hm hs
  | apply _ hds hd _ hs ih => exact ih.apply (suits_of_mem_repairs ih.chronicle hds _ hd) hs

/-! ### The partial plans of a search -/

/-- Partial plans to which a number of repairs lead from the first one, each of the flaw that comes
next. -/
inductive Path (task : Task) : Nat → PartialPlan → Prop
  | start {s : PartialPlan} (hs : task.start = .done () s) : Path task 0 s
  | apply {k : Nat} {s s' : PartialPlan} {flaw : Flaw} {ds : List Decision} {d : Decision}
      (h : Path task k s) (hflaw : task.nextFlaw s = .ok (some flaw))
      (hds : task.repairs s flaw = .ok ds) (hd : d ∈ ds) (hadmits : admits s d = .ok true)
      (hs : task.apply d s = .done () s') : Path task (k + 1) s'

theorem Path.reachable {k : Nat} (h : task.Path k s) : task.Reachable s := by
  induction h with
  | start hs => exact .start hs
  | apply _ _ hds hd hadmits hs ih => exact ih.apply hds hd hadmits hs

/-- A frame was made for the flaw that came next, on a path from which `n` more decisions can be
made, and the repairs that are left of it were proposed there. -/
structure Proposed (task : Task) (n : Nat) (s : PartialPlan) (frame : Frame) : Prop where
  path : ∃ k, k + n ≤ task.config.maxDecisions ∧ task.Path k s
  flaw : task.nextFlaw s = .ok (some frame.flaw)
  remaining : ∃ ds, task.repairs s frame.flaw = .ok ds ∧ ∀ d ∈ frame.candidates.remaining, d ∈ ds

variable {n : Nat}

/-- A frame that is proposed with one decision more to come is proposed. -/
theorem Proposed.of_succ (h : task.Proposed (n + 1) s frame) : task.Proposed n s frame := by
  obtain ⟨k, hle, hpath⟩ := h.path
  exact ⟨⟨k, by omega, hpath⟩, h.flaw, h.remaining⟩

/-- What is left of a frame when the next repair was taken from it, and where that repair leads. -/
theorem Proposed.next (h : task.Proposed (n + 1) s frame) {d? : Option Decision}
    (hnext : frame.candidates.next s = .ok (d?, cs)) :
    task.Proposed n s { frame with candidates := cs } ∧
      ∀ d, d? = some d → ∀ s', task.apply d s = .done () s' →
        ∃ k, k + n ≤ task.config.maxDecisions ∧ task.Path k s' := by
  obtain ⟨k, hle, hpath⟩ := h.path
  obtain ⟨ds, hds, hmem⟩ := h.remaining
  obtain ⟨hleft, htaken⟩ := Candidates.next_mem hnext
  refine ⟨⟨⟨k, by omega, hpath⟩, h.flaw, ds, hds, fun d hd => hmem d (hleft d hd)⟩,
    fun d hd s' hs => ?_⟩
  obtain ⟨hd, hadmits⟩ := htaken d hd
  -- the decision takes one from what is left of the budget
  exact ⟨k + 1, by omega, hpath.apply h.flaw hds (hmem d hd) hadmits hs⟩

/-- All frames are made on paths, and plans are read off where a path ends. The length of a path and
the decisions that are left never add up to more than the budget, which is how the number of tokens
is kept in bounds. -/
theorem invariant_proposed (root : List String) :
    task.Invariant root (fun n => Traced (task.Proposed n))
      (fun n s stack => (∃ k, k + n ≤ task.config.maxDecisions ∧ task.Path k s) ∧
        Traced (task.Proposed n) s stack)
      (fun answer => ∀ p, answer = .ok (.ok p) → ∃ k s, k ≤ task.config.maxDecisions ∧
        task.Path k s ∧ task.nextFlaw s = .ok none ∧ task.extract s = .ok p) where
  fault := by simp
  cutShort := by simp
  exhausted := by simp
  giveUp := fun n s frame outer s₁ cs h hundo _ => (h.undo hundo).2
  -- a decision that got stuck is off the path, but the frame goes on from where it was made
  stuck := by
    intro n s frame outer s₁ d cs why s₂ h hundo hnext happly
    obtain ⟨hproposed, houter⟩ := h.undo hundo
    exact (houter.mono fun _ _ => Proposed.of_succ).cons (PartialPlan.mark_of_undoTo hundo)
      (hproposed.next hnext).1 (task.reversible_apply d s₁ s₂ (.inr ⟨why, happly⟩))
  done := by
    intro n s frame outer s₁ d cs s₂ h hundo hnext happly
    obtain ⟨hproposed, houter⟩ := h.undo hundo
    -- the partial plan is one decision further along, and the frame has one less
    obtain ⟨hrest, hpath⟩ := hproposed.next hnext
    exact ⟨hpath d rfl s₂ happly, (houter.mono fun _ _ => Proposed.of_succ).cons
      (PartialPlan.mark_of_undoTo hundo) hrest
        (task.reversible_apply d s₁ s₂ (.inl ⟨(), happly⟩))⟩
  plan := by
    rintro n s stack p ⟨⟨k, hle, hpath⟩, -⟩ hflaw hplan p' ⟨⟩
    exact ⟨k, s, by omega, hpath, hflaw, hplan⟩
  flaw := by
    rintro n s stack flaw cs ⟨hpath, htraced⟩ hflaw hcs
    obtain ⟨ds, hds, rfl⟩ := Fault.map_eq_ok.mp hcs
    exact htraced.cons rfl ⟨hpath, hflaw, ds, hds, fun d hd => hd⟩ (.refl s)

/-- **Every plan is read off a partial plan without flaws at the end of a path.** -/
theorem exists_path {p : Plan} (h : task.run clock = .ok (.ok p)) :
    ∃ k s, k ≤ task.config.maxDecisions ∧ task.Path k s ∧ task.nextFlaw s = .ok none ∧
      task.extract s = .ok p :=
  Invariant.good_run invariant_proposed
    (fun _ hs => ⟨⟨0, by omega, .start hs⟩, trivial⟩) (by simp) p h

/-- Every plan is read off a reachable partial plan without flaws. -/
theorem exists_reachable {p : Plan} (h : task.run clock = .ok (.ok p)) :
    ∃ s, task.Reachable s ∧ task.nextFlaw s = .ok none ∧ task.extract s = .ok p := by
  obtain ⟨k, s, -, hpath, hflaw, hplan⟩ := exists_path h
  exact ⟨s, hpath.reachable, hflaw, hplan⟩

end Task

end TemporalPlanning
