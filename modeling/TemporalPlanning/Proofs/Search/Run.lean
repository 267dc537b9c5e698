import TemporalPlanning.Proofs.Undo
import TemporalPlanning.Search.Run

/-!
# Invariants of the search

A property of the answer of a search is proved by an invariant of its frames and one of its partial
plans (`Task.Invariant`): what the search does between two decisions, giving up a frame, carrying a
repair out, making a frame for the next flaw, has to keep them (`Task.Invariant.explore`).

Whatever a search has done, each frame can be gone back to; `Task.Traced` says what holds there.
-/

namespace TemporalPlanning

namespace Candidates

/-- The decision that comes next is the first one that is admitted. Those in front of it were tested
and refused, and they are gone for good: the rest begins behind the one handed out. -/
theorem firstAdmitted_eq_ok {s : PartialPlan} {ds : List Decision} {d? : Option Decision}
    {rest : List Decision} (h : firstAdmitted s ds = .ok (d?, rest)) :
    ∃ skipped, (∀ d ∈ skipped, Task.admits s d = .ok false) ∧ ds = skipped ++ d?.toList ++ rest ∧
      (d? = none → rest = []) ∧ ∀ d, d? = some d → Task.admits s d = .ok true := by
  induction ds with
  | nil =>
    obtain ⟨rfl, rfl⟩ := Prod.mk.inj (Except.ok.inj h)
    exact ⟨[], by simp, rfl, fun _ => rfl, by simp⟩
  | cons d ds ih =>
    obtain ⟨admitted, hadmitted, h⟩ := Fault.bind_eq_ok.mp h
    -- a candidate without room joins those that are skipped
    cases admitted with
    | true =>
      obtain ⟨rfl, rfl⟩ := Prod.mk.inj (Except.ok.inj h)
      exact ⟨[], by simp, rfl, by simp, fun _ heq => Option.some.inj heq ▸ hadmitted⟩
    | false =>
      obtain ⟨skipped, hskipped, rfl, hrest⟩ := ih h
      exact ⟨d :: skipped, List.forall_mem_cons.mpr ⟨hadmitted, hskipped⟩, rfl, hrest⟩

/-- The next candidate is the first of the remaining ones that there is room for; those before it
are skipped for good, and without one none remains. -/
theorem next_eq_ok {s : PartialPlan} {cs cs' : Candidates} {d? : Option Decision}
    (h : cs.next s = .ok (d?, cs')) :
    ∃ skipped, (∀ d ∈ skipped, Task.admits s d = .ok false) ∧
      cs.remaining = skipped ++ d?.toList ++ cs'.remaining ∧
      (d? = none → cs'.remaining = []) ∧ ∀ d, d? = some d → Task.admits s d = .ok true := by
  obtain ⟨⟨d, rest⟩, hfirst, heq⟩ := Fault.map_eq_ok.mp h
  obtain ⟨rfl, rfl⟩ := Prod.mk.inj heq
  exact firstAdmitted_eq_ok hfirst

/-- The repair that is taken and those that are left were all there before. -/
theorem next_mem {s : PartialPlan} {cs cs' : Candidates} {d? : Option Decision}
    (h : cs.next s = .ok (d?, cs')) : (∀ d ∈ cs'.remaining, d ∈ cs.remaining) ∧
      ∀ d, d? = some d → d ∈ cs.remaining ∧ Task.admits s d = .ok true := by
  obtain ⟨skipped, -, hremaining, -, hadmits⟩ := next_eq_ok h
  rw [hremaining]
  refine ⟨fun d hd => List.mem_append_right _ hd, ?_⟩
  rintro d rfl
  exact ⟨by simp, hadmits d rfl⟩

end Candidates

namespace Task

variable {task : Task} {clock : Clock} {root : List String}

/-! ### A rule for the search -/

/-- An invariant of a search. `waiting n s stack` is to hold whenever the search looks for a repair
among the frames with `n` decisions left, `fresh n s stack` whenever a repair has been carried out,
and `Good` of the answer. -/
structure Invariant (task : Task) (root : List String)
    (waiting fresh : Nat → PartialPlan → List Frame → Prop) (Good : Except Fault Answer → Prop) :
    Prop where
  fault : ∀ why, Good (.error why)
  cutShort : ∀ n flaws, Good (.ok (.error (.cutShort n flaws)))
  exhausted : ∀ n s, waiting n s [] → Good (.ok (.error (.exhausted root)))
  /-- No frame is worked on with the partial plan of another one. -/
  giveUp : ∀ n s frame outer s₁ cs, waiting n s (frame :: outer) → s.undoTo frame.mark = .ok s₁ →
    frame.candidates.next s₁ = .ok (none, cs) → waiting n s₁ outer
  stuck : ∀ n s frame outer s₁ d cs why s₂, waiting (n + 1) s (frame :: outer) →
    s.undoTo frame.mark = .ok s₁ → frame.candidates.next s₁ = .ok (some d, cs) →
    task.apply d s₁ = .stuck why s₂ → waiting n s₂ ({ frame with candidates := cs } :: outer)
  done : ∀ n s frame outer s₁ d cs s₂, waiting (n + 1) s (frame :: outer) →
    s.undoTo frame.mark = .ok s₁ → frame.candidates.next s₁ = .ok (some d, cs) →
    task.apply d s₁ = .done () s₂ → fresh n s₂ ({ frame with candidates := cs } :: outer)
  plan : ∀ n s stack p, fresh n s stack → task.nextFlaw s = .ok none →
    task.extract s = .ok p → Good (.ok (.ok p))
  flaw : ∀ n s stack flaw cs, fresh n s stack → task.nextFlaw s = .ok (some flaw) →
    Candidates.ofFlaw task s flaw = .ok cs → waiting n s (⟨flaw, cs, s.mark⟩ :: stack)

namespace Invariant

variable {waiting fresh : Nat → PartialPlan → List Frame → Prop}
  {Good : Except Fault Answer → Prop}

/-- A search that is cut short has a good answer. -/
theorem good_cutShort (h : task.Invariant root waiting fresh Good) (s : PartialPlan) (n : Nat) :
    Good (task.cutShort s n) := by
  unfold Task.cutShort
  cases task.describeOpenFlaws s with
  | error why => exact h.fault why
  | ok flaws => exact h.cutShort n flaws

/-- So has one that selects a flaw, if going on from there has. A search that is cut short here,
that faults or that ends with a plan is covered by the clauses of the invariant for these answers.
-/
theorem good_select (h : task.Invariant root waiting fresh Good) {n decisions : Nat}
    {go : Continuation} (hgo : ∀ clock s stack, waiting n s stack → Good (go clock s stack))
    {s : PartialPlan} {stack : List Frame} (hs : fresh n s stack) :
    Good (task.select decisions go clock s stack) := by
  unfold Task.select
  split
  · -- the deadline has passed
    exact h.good_cutShort s decisions
  · cases hflaw : task.nextFlaw s with
    | error why => exact h.fault why
    | ok flaw? =>
      cases flaw? with
      | none =>
        cases hplan : task.extract s with
        | error why => exact h.fault why
        | ok p => exact h.plan n s stack p hs hflaw hplan
      | some flaw =>
        -- a frame is made for the flaw, and the search goes on from there
        show Good (Candidates.ofFlaw task s flaw >>= fun cs =>
          go clock.later s (⟨flaw, cs, s.mark⟩ :: stack))
        cases hcs : Candidates.ofFlaw task s flaw with
        | error why => exact h.fault why
        | ok cs => exact hgo _ _ _ (h.flaw n s stack flaw cs hs hflaw hcs)

/-- So has one that goes back through its frames, if every attempt has. The induction is on the
stack: a frame without candidates is dropped, and the one below takes its turn. -/
theorem good_backtrack (h : task.Invariant root waiting fresh Good) {n decisions : Nat}
    {attempt : Decision → Continuation}
    (hattempt : ∀ clock s frame outer s₁ d cs, waiting n s (frame :: outer) →
      s.undoTo frame.mark = .ok s₁ → frame.candidates.next s₁ = .ok (some d, cs) →
      Good (attempt d clock s₁ ({ frame with candidates := cs } :: outer)))
    {s : PartialPlan} {stack : List Frame} (hs : waiting n s stack) :
    Good (task.backtrack root decisions attempt clock s stack) := by
  -- A frame without repairs is given up, and the search goes on in the next one outside. The time
  -- is read again there, so that the induction is for all readings that are still to come.
  induction stack generalizing clock s with
  | nil => exact h.exhausted n s hs
  | cons frame outer ih =>
    unfold Task.backtrack
    split
    · exact h.good_cutShort s decisions
    · show Good (s.undoTo frame.mark >>= fun s₁ => frame.candidates.next s₁ >>= _)
      cases hundo : s.undoTo frame.mark with
      | error why => exact h.fault why
      | ok s₁ =>
        show Good (frame.candidates.next s₁ >>= _)
        cases hnext : frame.candidates.next s₁ with
        | error why => exact h.fault why
        | ok next =>
          obtain ⟨d?, cs⟩ := next
          cases d? with
          | none => exact ih (h.giveUp n s frame outer s₁ cs hs hundo hnext)
          | some d => exact hattempt _ s frame outer s₁ d cs hs hundo hnext

/-- **An invariant holds until the search ends.** The induction is on the budget, and an attempt,
done or stuck, is followed by a search with one decision less. -/
theorem good_explore (h : task.Invariant root waiting fresh Good) {n : Nat} {s : PartialPlan}
    {stack : List Frame} (hs : waiting n s stack) : Good (task.explore root n clock s stack) := by
  -- along the decisions that are left; the clock only decides where the search ends
  induction n generalizing clock s stack with
  | zero =>
    unfold Task.explore
    split
    · next hempty =>
      obtain rfl := List.isEmpty_iff.mp hempty
      exact h.exhausted 0 s hs
    · exact h.good_cutShort s _
  | succ n ih =>
    -- Whatever comes of the repair that is found, it uses up a decision.
    refine h.good_backtrack (n := n + 1) (fun clock s frame outer s₁ d cs hs hundo hnext => ?_) hs
    cases happly : task.apply d s₁ with
    | done _ s₂ =>
      exact h.good_select (fun clock s stack hs => ih hs)
        (h.done n s frame outer s₁ d cs s₂ hs hundo hnext happly)
    | stuck why s₂ => exact ih (h.stuck n s frame outer s₁ d cs why s₂ hs hundo hnext happly)
    | forbidden why => exact h.fault why

/-- An invariant that the first partial plan establishes holds of the answer. The invariant may
depend on the description of the first flaws, which the search keeps for the case that it is
exhausted. -/
theorem good_run (h : ∀ root, task.Invariant root waiting fresh Good)
    (hdone : ∀ s, task.start = .done () s → fresh task.config.maxDecisions s [])
    (hstuck : ∀ why s, task.start = .stuck why s → Good (.ok (.error (.exhausted [why.message])))) :
    Good (task.run clock) := by
  unfold Task.run
  cases hstart : task.start with
  | forbidden why => exact (h []).fault why
  | stuck why s => exact hstuck why s hstart
  | done _ s =>
    dsimp only
    cases hroot : task.describeOpenFlaws s with
    | error why => exact (h []).fault why
    | ok root =>
      -- from the first selection on, the frames keep the invariant
      exact (h root).good_select (fun clock s stack hs => (h root).good_explore hs) (hdone s hstart)

end Invariant

/-! ### Going back to frames -/

/-- Each frame can be gone back to, and `P` holds there. -/
def Traced (P : PartialPlan → Frame → Prop) : PartialPlan → List Frame → Prop
  | _, [] => True
  | s, frame :: outer => ∃ s₁, s.undoTo frame.mark = .ok s₁ ∧ P s₁ frame ∧ Traced P s₁ outer

variable {P Q : PartialPlan → Frame → Prop} {s s' : PartialPlan} {stack outer : List Frame}
  {frame : Frame}

/-- What holds of the frames of a trace may be weakened. -/
theorem Traced.mono (h : Traced P s stack) (hPQ : ∀ s frame, P s frame → Q s frame) :
    Traced Q s stack := by
  induction stack generalizing s with
  | nil => trivial
  | cons frame outer ih =>
    obtain ⟨s₁, hundo, hP, houter⟩ := h
    exact ⟨s₁, hundo, hPQ _ _ hP, ih houter⟩

/-- Going back to the innermost frame leads to where that frame was made; the others are traced from
there. -/
theorem Traced.undo (h : Traced P s (frame :: outer)) {s₁ : PartialPlan}
    (hundo : s.undoTo frame.mark = .ok s₁) : P s₁ frame ∧ Traced P s₁ outer := by
  obtain ⟨s₁', hundo', hP, houter⟩ := h
  obtain rfl := Except.ok.inj (hundo.symm.trans hundo')
  exact ⟨hP, houter⟩

/-- A frame stays on the stack when a repair is carried out from where it was made. -/
theorem Traced.cons (h : Traced P s outer) (hmark : s.mark = frame.mark) (hP : P s frame)
    (hs : s.Extends s') : Traced P s' (frame :: outer) :=
  ⟨s, by rw [← hmark]; exact hs.undoTo_mark, hP, h⟩

/-- For some frame that can be gone back to, `P` holds there. -/
def Somewhere (P : PartialPlan → Frame → Prop) : PartialPlan → List Frame → Prop
  | _, [] => False
  | s, frame :: outer => ∃ s₁, s.undoTo frame.mark = .ok s₁ ∧ (P s₁ frame ∨ Somewhere P s₁ outer)

/-- If some frame has the property, it is the innermost one when the search has gone back to it, or
one further out. -/
theorem Somewhere.undo (h : Somewhere P s (frame :: outer)) {s₁ : PartialPlan}
    (hundo : s.undoTo frame.mark = .ok s₁) : P s₁ frame ∨ Somewhere P s₁ outer := by
  obtain ⟨s₁', hundo', hP⟩ := h
  obtain rfl := Except.ok.inj (hundo.symm.trans hundo')
  exact hP

/-- A frame added to the stack, or one further out, has the property. -/
theorem Somewhere.cons (h : P s frame ∨ Somewhere P s outer) (hmark : s.mark = frame.mark)
    (hs : s.Extends s') : Somewhere P s' (frame :: outer) :=
  ⟨s, by rw [← hmark]; exact hs.undoTo_mark, h⟩

end Task

end TemporalPlanning
