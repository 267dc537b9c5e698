import TemporalPlanning.Proofs.Search.Run
import TemporalPlanning.Proofs.Search.Solved
import TemporalPlanning.Proofs.Search.Start
import TemporalPlanning.Proofs.Search.Steps

/-!
# Searching over copies

The search changes one partial plan, keeps a stack of frames, and goes back to a mark before it
tries the next repair. Depth first search is easier to say with recursion, each repair tried on a
copy (`Task.search`). The two give the same answer (`Task.run_eq_search`), because a frame is gone
back to exactly where it was made, however the decisions above it ended, and has then its untried
repairs left (`Task.Visits.resumes`).

The recursion is on the decisions that are left. What both kinds of search do with one frame is
compared by induction on that number (`Task.triesEach`): a repair leads to fewer decisions, and what
is left of them when its partial plan is given up is spent on the repairs behind it.
-/

namespace TemporalPlanning

/-- How a search from a partial plan ends that may make `budget` decisions. -/
inductive Verdict (budget : Nat) where
  | plan (p : Plan)
  /-- Everything was tried, and `left` decisions are left. -/
  | exhausted (left : Nat) (hpos : 0 < left) (hle : left ≤ budget)
  /-- No decision is left. Those in `accepted` lead to the partial plan in which the search ended;
  if the last decision of all has failed, `s` is what it left behind there. -/
  | spent (accepted : List Decision) (failed : Option Decision) (s : PartialPlan)

/-- A verdict for a smaller budget. -/
def Verdict.widen {budget budget' : Nat} (h : budget ≤ budget') : Verdict budget → Verdict budget'
  | .plan p => .plan p
  | .exhausted left hpos hle => .exhausted left hpos (hle.trans h)
  | .spent accepted failed s => .spent accepted failed s

namespace Task

variable (task : Task)

mutual

/-- Searches from a partial plan: it is complete, or all repairs of its next flaw are tried for
which there is room. -/
def searchFrom (budget : Nat) (s : PartialPlan) : Except Fault (Verdict budget) := do
  match ← task.nextFlaw s with
  | none => return .plan (← task.extract s)
  | some flaw =>
    let feasible ← Fault.filter (admits s) (← task.repairs s flaw)
    tryEach budget s none s feasible
termination_by (budget, 1)

/-- Tries repairs of a partial plan one after the other, each on a copy of it. The last decision
before, `failed` if it did not work out, has led to `here`. -/
def tryEach (budget : Nat) (s : PartialPlan) (failed : Option Decision) (here : PartialPlan)
    (ds : List Decision) : Except Fault (Verdict budget) :=
  match budget, ds with
  | 0, _ => return .spent [] failed here
  | budget + 1, [] => return .exhausted (budget + 1) budget.succ_pos le_rfl
  | budget + 1, d :: ds =>
    match task.apply d s with
    | .forbidden why => .error why
    -- what a decision that got stuck leaves behind is what is reported if the budget ends here
    | .stuck _ s' => do
      return (← tryEach budget s (some d) s' ds).widen (Nat.le_succ budget)
    | .done () s' => do
      match ← searchFrom budget s' with
      | .plan p => return .plan p
      | .spent accepted failed here => return .spent (d :: accepted) failed here
      | .exhausted left _ hle =>
        return (← tryEach left s none s ds).widen (hle.trans (Nat.le_succ budget))
termination_by (budget, 0)

end

/-- Searches a plan for a model, on copies of partial plans. -/
def search : Except Fault Answer :=
  match task.start with
  | .forbidden fault => .error fault
  | .stuck why _ => return .error (.exhausted [why.message])
  | .done () s => do
    let root ← task.describeOpenFlaws s
    match ← task.searchFrom task.config.maxDecisions s with
    | .plan p => return .ok p
    | .exhausted _ _ _ => return .error (.exhausted root)
    | .spent _ _ s => task.cutShort s task.config.maxDecisions

end Task

/-! ### Candidates in order -/

/-- The decisions for which there is room come one after the other. Handing out one candidate at a
time, and testing it only then, gives the same decisions as testing all of them in advance. -/
theorem Candidates.firstAdmitted_of_filter {s : PartialPlan} {ds feasible : List Decision}
    (h : Fault.filter (Task.admits s) ds = .ok feasible) : ∃ rest,
      firstAdmitted s ds = .ok (feasible.head?, rest) ∧
        Fault.filter (Task.admits s) rest = .ok feasible.tail := by
  induction ds generalizing feasible with
  | nil =>
    obtain rfl := Except.ok.inj h
    exact ⟨[], rfl, rfl⟩
  | cons d ds ih =>
    obtain ⟨admitted, hadmitted, h⟩ := Fault.bind_eq_ok.mp h
    obtain ⟨kept, hkept, h⟩ := Fault.bind_eq_ok.mp h
    obtain rfl := Except.ok.inj h
    -- the first candidate is handed out if there is room for it, and else the search for one goes
    -- on
    cases admitted with
    | true => exact ⟨ds, Fault.bind_eq_ok.mpr ⟨true, hadmitted, rfl⟩, hkept⟩
    | false =>
      obtain ⟨rest, hfirst, hrest⟩ := ih hkept
      exact ⟨rest, Fault.bind_eq_ok.mpr ⟨false, hadmitted, hfirst⟩, hrest⟩

/-- The next candidate is the first of those that there is room for. Of what remains behind it there
is room for the others, so that a list that was filtered at once can stand for the candidates that
are tested one by one. -/
theorem Candidates.next_of_filter {s : PartialPlan} {cs : Candidates} {feasible : List Decision}
    (h : Fault.filter (Task.admits s) cs.remaining = .ok feasible) : ∃ rest,
      cs.next s = .ok (feasible.head?, { cs with remaining := rest }) ∧
        Fault.filter (Task.admits s) rest = .ok feasible.tail := by
  obtain ⟨rest, hfirst, hrest⟩ := firstAdmitted_of_filter h
  exact ⟨rest, Fault.map_eq_ok.mpr ⟨_, hfirst, rfl⟩, hrest⟩

namespace Task

variable {task : Task} {clock : Clock} {root : List String} {facts : Nat → Nat}

/-! ### Without a deadline

A search without a deadline reads no clock. A step of it leaves fewer readings to come, and goes on
as if it had not: that is why the equations below have the same clock on both sides. -/

/-- Without a deadline it is never late. -/
theorem isLate_eq_false (hdeadline : task.config.deadline = none) (clock : Clock) :
    task.isLate clock = false := by
  rw [isLate, hdeadline]

/-- A search goes on in the same way whatever the clock says. -/
def Continuation.Timeless (go : Continuation) : Prop :=
  ∀ clock clock', go clock = go clock'

/-- Without a deadline a selection does not read the clock, and neither does what it goes on with.
-/
theorem timeless_select (hdeadline : task.config.deadline = none) {go : Continuation}
    (hgo : go.Timeless) (decisions : Nat) : (task.select decisions go).Timeless := by
  intro clock clock'
  funext s stack
  rw [select, select, isLate_eq_false hdeadline, isLate_eq_false hdeadline,
    hgo clock.later clock'.later]

/-- Going back through the frames does not read the clock either, although it would before each of
them if there were a deadline. -/
theorem timeless_backtrack (hdeadline : task.config.deadline = none)
    {attempt : Decision → Continuation} (hattempt : ∀ d, (attempt d).Timeless) (decisions : Nat) :
    Continuation.Timeless (task.backtrack root decisions attempt) := by
  intro clock clock'
  funext s stack
  induction stack generalizing clock clock' s with
  | nil => rfl
  | cons frame outer ih =>
    rw [backtrack, backtrack, isLate_eq_false hdeadline, isLate_eq_false hdeadline]
    simp only [ih clock.later clock'.later, hattempt _ clock.later clock'.later]

/-- Without a deadline the search is the same whatever the clock shows. Only the deadline is
compared with the readings, and it is the induction on the budget that passes them on. -/
theorem timeless_explore (hdeadline : task.config.deadline = none) (root : List String) (n : Nat) :
    (task.explore root n).Timeless := by
  induction n with
  | zero => exact fun _ _ => rfl
  | succ n ih =>
    refine fun clock clock' =>
      timeless_backtrack hdeadline (fun d clock clock' => ?_) _ clock clock'
    funext s stack
    -- the decision does not read the clock; what follows it is the case of a smaller budget
    cases task.apply d s with
    | done _ s => exact congrFun₂ (timeless_select hdeadline ih _ clock clock') s stack
    | stuck _ s => exact congrFun₂ (ih clock clock') s stack
    | forbidden why => rfl

/-- Without a deadline a frame is made for the next flaw, or the search ends with the plan. -/
theorem select_eq (hdeadline : task.config.deadline = none) {go : Continuation}
    (hgo : go.Timeless) (decisions : Nat) (s : PartialPlan) (stack : List Frame) :
    task.select decisions go clock s stack = (do
      match ← task.nextFlaw s with
      | none => return .ok (← task.extract s)
      | some flaw =>
        let cs ← Candidates.ofFlaw task s flaw
        go clock s (⟨flaw, cs, s.mark⟩ :: stack)) := by
  rw [hgo clock clock.later, select, isLate_eq_false hdeadline]
  exact if_neg Bool.false_ne_true

/-- An open flaw gets a frame, which marks the partial plan that it is made in. -/
theorem select_of_flaw (hdeadline : task.config.deadline = none) {go : Continuation}
    (hgo : go.Timeless) {decisions : Nat} {s : PartialPlan} {stack : List Frame} {flaw : Flaw}
    {cs : Candidates} (hflaw : task.nextFlaw s = .ok (some flaw))
    (hcs : Candidates.ofFlaw task s flaw = .ok cs) :
    task.select decisions go clock s stack = go clock s (⟨flaw, cs, s.mark⟩ :: stack) := by
  rw [select_eq hdeadline hgo, hflaw]
  show (Candidates.ofFlaw task s flaw >>= _) = _
  rw [hcs]
  rfl

/-- Without a deadline, and with a decision left, a frame without repairs is given up, and the next
repair of any other frame is tried. -/
theorem explore_cons (hdeadline : task.config.deadline = none) (n : Nat) (s : PartialPlan)
    (frame : Frame) (outer : List Frame) :
    task.explore root (n + 1) clock s (frame :: outer) = (do
      let s₁ ← s.undoTo frame.mark
      match ← frame.candidates.next s₁ with
      | (none, _) => task.explore root (n + 1) clock s₁ outer
      | (some d, cs) =>
        match task.apply d s₁ with
        | .done () s₂ =>
          task.select (task.config.maxDecisions - (n + 1) + 1) (task.explore root n) clock s₂
            ({ frame with candidates := cs } :: outer)
        | .stuck _ s₂ => task.explore root n clock s₂ ({ frame with candidates := cs } :: outer)
        | .forbidden why => .error why) := by
  have hgo := timeless_explore hdeadline root n
  -- the time is read once, before the frame is gone back to
  rw [explore, backtrack, isLate_eq_false hdeadline, if_neg Bool.false_ne_true,
    ← timeless_explore hdeadline root (n + 1) clock.later clock, ← hgo clock.later clock,
    ← timeless_select hdeadline hgo _ clock.later clock]
  rfl

/-- A frame without a candidate is given up, and the search goes on with the frame outside of it. -/
theorem explore_giveUp (hdeadline : task.config.deadline = none) {n : Nat} {s s₁ : PartialPlan}
    {frame : Frame} {outer : List Frame} {cs : Candidates} (hundo : s.undoTo frame.mark = .ok s₁)
    (hnext : frame.candidates.next s₁ = .ok (none, cs)) :
    task.explore root (n + 1) clock s (frame :: outer) =
      task.explore root (n + 1) clock s₁ outer := by
  rw [explore_cons hdeadline, hundo]
  show (frame.candidates.next s₁ >>= _) = _
  rw [hnext]
  rfl

/-- Otherwise the next candidate is tried, which costs one decision. Whether the decision was done
or stuck, the budget shrinks by one; only after a done one is a new flaw selected. -/
theorem explore_try (hdeadline : task.config.deadline = none) {n : Nat} {s s₁ : PartialPlan}
    {frame : Frame} {outer : List Frame} {d : Decision} {cs : Candidates}
    (hundo : s.undoTo frame.mark = .ok s₁)
    (hnext : frame.candidates.next s₁ = .ok (some d, cs)) :
    task.explore root (n + 1) clock s (frame :: outer) =
      match task.apply d s₁ with
      | .done () s₂ =>
        task.select (task.config.maxDecisions - (n + 1) + 1) (task.explore root n) clock s₂
          ({ frame with candidates := cs } :: outer)
      | .stuck _ s₂ => task.explore root n clock s₂ ({ frame with candidates := cs } :: outer)
      | .forbidden why => .error why := by
  -- with no deadline the clock is not asked between the undo and the next candidate
  rw [explore_cons hdeadline, hundo]
  show (frame.candidates.next s₁ >>= _) = _
  rw [hnext]
  rfl

/-- The answer for a verdict; if everything was tried, `go` continues with what is left. -/
def conclude (task : Task) (go : Nat → Except Fault Answer) {budget : Nat} :
    Verdict budget → Except Fault Answer
  | .plan p => return .ok p
  | .exhausted left _ _ => go left
  | .spent _ _ s => task.cutShort s task.config.maxDecisions

/-- For how many decisions a verdict is meant makes no difference to the answer. -/
theorem conclude_widen {go : Nat → Except Fault Answer} {n k : Nat} (h : n ≤ k)
    (v? : Except Fault (Verdict n)) :
    ((v? >>= fun v => pure (v.widen h)) >>= task.conclude go) = v? >>= task.conclude go := by
  cases v? with
  | error why => rfl
  | ok v => cases v <;> rfl

/-- With `n` decisions left, the search does with its newest frame what `tryEach` does with the
partial plan in which the frame was made. -/
def TriesEach (task : Task) (clock : Clock) (root : List String) (n : Nat) : Prop :=
  ∀ facts s s₁ frame outer feasible failed, s.undoTo frame.mark = .ok s₁ →
    s₁.Tidy task.model facts → (∀ d ∈ frame.candidates.remaining, d.Suits task s₁) →
    Fault.filter (admits s₁) frame.candidates.remaining = .ok feasible →
      task.explore root n clock s (frame :: outer) =
        task.tryEach n s₁ failed s feasible >>=
          task.conclude fun left => task.explore root left clock s₁ outer

/-- If the frames do what recursion does with so many decisions left, then the search turns to the
next flaw as `searchFrom` does. -/
theorem TriesEach.select {n : Nat} (h : task.TriesEach clock root n)
    (hdeadline : task.config.deadline = none) {s : PartialPlan}
    (htidy : s.Tidy task.model facts) (decisions : Nat) (stack : List Frame) :
    task.select decisions (task.explore root n) clock s stack =
      task.searchFrom n s >>= task.conclude fun left => task.explore root left clock s stack := by
  rw [select_eq hdeadline (timeless_explore hdeadline root n), searchFrom]
  -- a fault, a finished plan and a list of repairs are passed on as they are
  cases hflaw : task.nextFlaw s with
  | error why => rfl
  | ok flaw? =>
    cases flaw? with
    | none =>
      cases hplan : task.extract s with
      | error why => rfl
      | ok p => rfl
    | some flaw =>
      cases hds : task.repairs s flaw with
      | error why => simp [Candidates.ofFlaw, hds, bind, Except.bind, Except.map]
      | ok ds =>
        have hsuits := suits_of_mem_repairs htidy.chronicle hds
        obtain ⟨feasible, hfeasible⟩ :=
          Fault.exists_filter fun d hd => exists_admits htidy (hsuits d hd)
        -- the frame starts with nothing tried, from the plan in which it is made
        have hframe := h facts s s ⟨flaw, ⟨ds, ds⟩, s.mark⟩ stack feasible none
          (PartialPlan.Extends.refl s).undoTo_mark htidy hsuits hfeasible
        simpa [Candidates.ofFlaw, hds, hfeasible, bind, Except.bind, Except.map] using hframe

/-- While a decision is left, it does not matter where the last one has led. -/
theorem tryEach_succ (n : Nat) (s : PartialPlan) (failed failed' : Option Decision)
    (here here' : PartialPlan) (ds : List Decision) :
    task.tryEach (n + 1) s failed here ds = task.tryEach (n + 1) s failed' here' ds := by
  cases ds <;> rw [tryEach, tryEach]

/-- The frames of a search do what recursion does: going back to the mark of a frame restores the
plan that the recursion still holds. The induction is on the decisions that are left, since an
attempt may spend any number of them. -/
theorem triesEach (hdeadline : task.config.deadline = none) (n : Nat) :
    task.TriesEach clock root n := by
  induction n using Nat.strong_induction_on with
  | _ n ih =>
  intro facts s s₁ frame outer feasible failed hundo htidy hsuits hfeasible
  cases n with
  | zero =>
    -- the search stops without going back, and `tryEach` reports the same partial plan
    rw [tryEach, explore]
    rfl
  | succ n =>
    obtain ⟨rest, hnext, hrest⟩ := Candidates.next_of_filter hfeasible
    cases feasible with
    | nil =>
      rw [explore_giveUp hdeadline hundo hnext, tryEach]
      rfl
    | cons d feasible =>
      obtain ⟨hleft, htaken⟩ := Candidates.next_mem hnext
      have hd : d.Suits task s₁ := hsuits d (htaken d rfl).1
      have hsuits' : ∀ d ∈ rest, d.Suits task s₁ := fun d hd => hsuits d (hleft d hd)
      -- the frame with what is left of it, gone back to from where `d` leads
      have again : ∀ left < n + 1, ∀ s' failed, (task.apply d).LeadsTo s₁ s' →
          task.explore root left clock s'
              ({ frame with candidates := { frame.candidates with remaining := rest } } :: outer) =
            task.tryEach left s₁ failed s' feasible >>=
              task.conclude fun left => task.explore root left clock s₁ outer := by
        intro left hleft s' failed hs'
        have hback : s'.undoTo frame.mark = .ok s₁ := by
          rw [← PartialPlan.mark_of_undoTo hundo]
          exact (task.reversible_apply d s₁ s' hs').undoTo_mark
        exact ih left hleft facts s' s₁ _ outer feasible failed hback htidy hsuits' hrest
      rw [explore_try hdeadline hundo hnext, tryEach]
      cases happly : task.apply d s₁ with
      | forbidden why => rfl
      | stuck why s' =>
        exact (again n n.lt_succ_self s' (some d) (.inr ⟨why, happly⟩)).trans
          (conclude_widen n.le_succ _).symm
      | done u s' =>
        have htidy' := htidy.apply hd happly
        refine ((ih n n.lt_succ_self).select hdeadline htidy' _ _).trans ?_
        dsimp only
        cases task.searchFrom n s' with
        | error why => rfl
        | ok v =>
          cases v with
          | plan p => rfl
          | spent accepted failed' here => rfl
          | exhausted left hpos hle =>
            -- back to the frame, with those decisions that the attempt has left
            refine (again left (Nat.lt_succ_of_le hle) s' none (.inl ⟨u, happly⟩)).trans ?_
            obtain ⟨k, rfl⟩ := Nat.exists_eq_succ_of_ne_zero hpos.ne'
            rw [tryEach_succ k s₁ none none s' s₁]
            exact (conclude_widen (hle.trans n.le_succ) _).symm

/-- **A search on copies gives the same answer**: the same plan, or the same reason for which there
is none, with the same number of decisions. -/
theorem run_eq_search (hm : task.model.WellFormed) (hdeadline : task.config.deadline = none) :
    task.run clock = task.search := by
  unfold run search
  cases hstart : task.start with
  | forbidden why => rfl
  | stuck why s => rfl
  | done u s =>
    dsimp only
    cases hroot : task.describeOpenFlaws s with
    | error why => rfl
    | ok root =>
      -- the search begins with a selection, without any frame
      refine ((triesEach hdeadline _).select hdeadline (tidy_of_start hm hstart) 0 []).trans ?_
      show _ = (task.searchFrom task.config.maxDecisions s >>= _)
      cases task.searchFrom task.config.maxDecisions s with
      | error why => rfl
      | ok v =>
        cases v with
        | plan p => rfl
        | spent accepted failed s => rfl
        | exhausted left hpos hle =>
          -- no frame is left
          obtain ⟨k, rfl⟩ := Nat.exists_eq_succ_of_ne_zero hpos.ne'
          rfl

/-! ### On the way -/

/-- A frame, the partial plan in which it was made, and the decisions that were tried from it. -/
structure Attempt where
  frame : Frame
  made : PartialPlan
  tried : List Decision := []

/-- One decision more was tried. -/
def Attempt.next (a : Attempt) (d : Decision) (cs : Candidates) : Attempt :=
  ⟨{ a.frame with candidates := cs }, a.made, a.tried ++ [d]⟩

/-- `task.Visits root n s stack`: on its way a search looks for a repair among these frames, with
`n` decisions left. -/
inductive Visits (task : Task) (root : List String) : Nat → PartialPlan → List Attempt → Prop
  | start {s : PartialPlan} {flaw : Flaw} {cs : Candidates} (hs : task.start = .done () s)
      (hroot : task.describeOpenFlaws s = .ok root) (hflaw : task.nextFlaw s = .ok (some flaw))
      (hcs : Candidates.ofFlaw task s flaw = .ok cs) :
      Visits task root task.config.maxDecisions s [⟨⟨flaw, cs, s.mark⟩, s, []⟩]
  | giveUp {n : Nat} {s s₁ : PartialPlan} {a : Attempt} {outer : List Attempt} {cs : Candidates}
      (h : Visits task root (n + 1) s (a :: outer)) (hundo : s.undoTo a.frame.mark = .ok s₁)
      (hnext : a.frame.candidates.next s₁ = .ok (none, cs)) : Visits task root (n + 1) s₁ outer
  | stuck {n : Nat} {s s₁ s₂ : PartialPlan} {a : Attempt} {outer : List Attempt} {d : Decision}
      {cs : Candidates} {why : DeadEnd} (h : Visits task root (n + 1) s (a :: outer))
      (hundo : s.undoTo a.frame.mark = .ok s₁)
      (hnext : a.frame.candidates.next s₁ = .ok (some d, cs))
      (happly : task.apply d s₁ = .stuck why s₂) : Visits task root n s₂ (a.next d cs :: outer)
  | done {n : Nat} {s s₁ s₂ : PartialPlan} {a : Attempt} {outer : List Attempt} {d : Decision}
      {cs cs' : Candidates} {flaw : Flaw} (h : Visits task root (n + 1) s (a :: outer))
      (hundo : s.undoTo a.frame.mark = .ok s₁)
      (hnext : a.frame.candidates.next s₁ = .ok (some d, cs))
      (happly : task.apply d s₁ = .done () s₂) (hflaw : task.nextFlaw s₂ = .ok (some flaw))
      (hcs : Candidates.ofFlaw task s₂ flaw = .ok cs') :
      Visits task root n s₂ (⟨⟨flaw, cs', s₂.mark⟩, s₂, []⟩ :: a.next d cs :: outer)

/-- A search ends as it ends from each partial plan on its way. By induction on the way: each step
of it is the step that the search itself makes there, as no deadline can interrupt it. -/
theorem Visits.explore_eq_run (hdeadline : task.config.deadline = none) {n : Nat} {s : PartialPlan}
    {stack : List Attempt} (h : task.Visits root n s stack) :
    task.explore root n clock s (stack.map Attempt.frame) = task.run clock := by
  -- each visit is one step of `explore` further on, so all of them end alike
  induction h with
  | start hs hroot hflaw hcs =>
    rw [run, hs]
    dsimp only
    rw [hroot]
    exact (select_of_flaw hdeadline (timeless_explore hdeadline _ _) hflaw hcs).symm
  | giveUp h hundo hnext ih =>
    exact (explore_giveUp hdeadline hundo hnext).symm.trans ih
  | stuck h hundo hnext happly ih =>
    refine Eq.trans ?_ ((explore_try hdeadline hundo hnext).symm.trans ih)
    rw [happly]
    rfl
  | done h hundo hnext happly hflaw hcs ih =>
    refine Eq.trans ?_ ((explore_try hdeadline hundo hnext).symm.trans ih)
    rw [happly]
    exact (select_of_flaw hdeadline (timeless_explore hdeadline _ _) hflaw hcs).symm

namespace Attempt

/-- A frame goes on where it has stopped: it is for the next flaw of the partial plan in which it
was made, and of the repairs there for which there is room, those that were not tried are left. -/
structure Belongs (task : Task) (a : Attempt) : Prop where
  tidy : a.made.Tidy task.model fun i => (task.model.factsOn i).length
  mark : a.made.mark = a.frame.mark
  flaw : task.nextFlaw a.made = .ok (some a.frame.flaw)
  repairs : task.repairs a.made a.frame.flaw = .ok a.frame.candidates.all
  left : ∃ left, Fault.filter (admits a.made) a.frame.candidates.all = .ok (a.tried ++ left) ∧
    Fault.filter (admits a.made) a.frame.candidates.remaining = .ok left

variable {s : PartialPlan} {a : Attempt} {d : Decision} {cs : Candidates}

/-- Nothing was tried from a frame that is made. -/
theorem belongs_new (h : s.Tidy task.model fun i => (task.model.factsOn i).length) {flaw : Flaw}
    (hflaw : task.nextFlaw s = .ok (some flaw)) (hcs : Candidates.ofFlaw task s flaw = .ok cs) :
    Belongs task ⟨⟨flaw, cs, s.mark⟩, s, []⟩ := by
  obtain ⟨ds, hds, rfl⟩ := Fault.map_eq_ok.mp hcs
  obtain ⟨feasible, hfeasible⟩ := Fault.exists_filter fun d hd =>
    exists_admits h (suits_of_mem_repairs h.chronicle hds d hd)
  exact ⟨h, rfl, hflaw, hds, feasible, hfeasible, hfeasible⟩

/-- The next decision of a frame is the first one that was not tried. The lists of candidates that
were computed when the frame was made stay valid, as the state is the same each time it is returned
to. -/
theorem Belongs.next (h : a.Belongs task)
    (hnext : a.frame.candidates.next a.made = .ok (some d, cs)) :
    d.Suits task a.made ∧ (a.next d cs).Belongs task := by
  obtain ⟨left, hall, hremaining⟩ := h.left
  obtain ⟨rest, hnext', hrest⟩ := Candidates.next_of_filter hremaining
  obtain ⟨hhead, rfl⟩ := Prod.mk.inj (Except.ok.inj (hnext.symm.trans hnext'))
  -- what is left begins with the decision handed out
  obtain ⟨left, rfl⟩ : ∃ tail, left = d :: tail := List.head?_eq_some_iff.mp hhead.symm
  have hd : d ∈ a.frame.candidates.all := (((Fault.mem_filter hall).2 d).mp (by simp)).1
  refine ⟨suits_of_mem_repairs h.tidy.chronicle h.repairs d hd, h.tidy, h.mark, h.flaw, h.repairs,
    left, ?_, hrest⟩
  rw [next, List.append_assoc]
  exact hall

end Attempt

/-- Each frame goes on in the partial plan in which it was made. -/
def Resumes (task : Task) : PartialPlan → List Attempt → Prop
  | _, [] => True
  | s, a :: outer =>
    s.undoTo a.frame.mark = .ok a.made ∧ a.Belongs task ∧ task.Resumes a.made outer

variable {s s₁ s₂ : PartialPlan} {a : Attempt} {outer : List Attempt} {d : Decision}
  {cs : Candidates}

/-- A frame that is gone back to stays behind what its next decision does. -/
theorem Resumes.next (h : task.Resumes s (a :: outer)) (hundo : s.undoTo a.frame.mark = .ok s₁)
    (hnext : a.frame.candidates.next s₁ = .ok (some d, cs)) (hs : (task.apply d).LeadsTo s₁ s₂) :
    task.Resumes s₂ (a.next d cs :: outer) := by
  obtain ⟨hmade, hbelongs, houter⟩ := h
  obtain rfl := Except.ok.inj (hundo.symm.trans hmade)
  refine ⟨?_, (hbelongs.next hnext).2, houter⟩
  show s₂.undoTo a.frame.mark = .ok a.made
  rw [← hbelongs.mark]
  exact (task.reversible_apply d a.made s₂ hs).undoTo_mark

/-- **On its way a search goes on with each frame where the frame was made.** The trail that was
recorded since then leads back to the very partial plan, whatever was tried and given up in between.
-/
theorem Visits.resumes (hm : task.model.WellFormed) {n : Nat} {stack : List Attempt}
    (h : task.Visits root n s stack) : task.Resumes s stack := by
  induction h with
  | start hs _ hflaw hcs =>
    exact ⟨(PartialPlan.Extends.refl _).undoTo_mark,
      Attempt.belongs_new (tidy_of_start hm hs) hflaw hcs, trivial⟩
  -- the frame that is given up was the innermost one; the next one resumes where that one was made
  | giveUp _ hundo _ ih =>
    obtain ⟨hmade, -, houter⟩ := ih
    obtain rfl := Except.ok.inj (hundo.symm.trans hmade)
    exact houter
  | stuck _ hundo hnext happly ih => exact ih.next hundo hnext (.inr ⟨_, happly⟩)
  | done _ hundo hnext happly hflaw hcs ih =>
    -- the new frame belongs to the plan in which it is made, and lies on top of the old one
    refine ⟨(PartialPlan.Extends.refl _).undoTo_mark, ?_,
      ih.next hundo hnext (.inl ⟨(), happly⟩)⟩
    obtain ⟨hmade, hbelongs, -⟩ := ih
    obtain rfl := Except.ok.inj (hundo.symm.trans hmade)
    exact Attempt.belongs_new (hbelongs.tidy.apply (hbelongs.next hnext).1 happly) hflaw hcs

/-- **A search does what recursion over copies does.** It gives the same answer, and on its way each
frame is gone back to exactly where it was made, and hands out the repairs there for which there is
room one after the other, each once. -/
theorem run_refines_search {problem : Problem} (hload : Model.load problem = .ok task.model)
    (hdeadline : task.config.deadline = none) :
    task.run clock = task.search ∧
      ∀ root n s a outer, task.Visits root n s (a :: outer) →
        task.explore root n clock s ((a :: outer).map Attempt.frame) = task.run clock ∧
        s.undoTo a.frame.mark = .ok a.made ∧ task.nextFlaw a.made = .ok (some a.frame.flaw) ∧
        ∃ ds left cs, task.repairs a.made a.frame.flaw = .ok ds ∧
          Fault.filter (admits a.made) ds = .ok (a.tried ++ left) ∧
            a.frame.candidates.next a.made = .ok (left.head?, cs) := by
  obtain ⟨hm, -⟩ := Model.wellFormed_of_load hload
  refine ⟨run_eq_search hm hdeadline, fun root n s a outer h => ?_⟩
  obtain ⟨hundo, hbelongs, -⟩ := h.resumes hm
  obtain ⟨left, hall, hremaining⟩ := hbelongs.left
  obtain ⟨rest, hnext, -⟩ := Candidates.next_of_filter hremaining
  exact ⟨h.explore_eq_run hdeadline, hundo, hbelongs.flaw, _, left, _, hbelongs.repairs, hall,
    hnext⟩

end Task

/-- The search on copies finds the plan of the lantern, and its first frame is gone back to where it
was made. -/
theorem run_refines_search_lantern : ∃ (task : Task) (root : List String) (s : PartialPlan)
    (a : Task.Attempt), Model.load lantern = .ok task.model ∧
      task.search = .ok (.ok lanternPlan) ∧ task.Visits root 20 s [a] ∧
      s.undoTo a.frame.mark = .ok a.made := by
  -- the task is computed up to its first frame
  obtain ⟨task, s, flaw, cs, root, hload, hconfig, hs, hroot, hflaw, hcs⟩ :
      ∃ (task : Task) (s : PartialPlan) (flaw : Flaw) (cs : Candidates) (root : List String),
        Model.load lantern = .ok task.model ∧ task.config = { maxDecisions := 20 } ∧
        task.start = .done () s ∧ task.describeOpenFlaws s = .ok root ∧
        task.nextFlaw s = .ok (some flaw) ∧ Candidates.ofFlaw task s flaw = .ok cs :=
    ⟨⟨_, _⟩, _, _, _, _, rfl, rfl, rfl, rfl, rfl, rfl⟩
  -- the first frame is on the way of the search
  have hvisits := Task.Visits.start hs hroot hflaw hcs
  rw [hconfig] at hvisits
  obtain ⟨hsearch, hresumes⟩ :=
    @Task.run_refines_search task .stopped lantern hload (by rw [hconfig])
  have hsolve := solve_lantern
  rw [Problem.solve, hload, ← hconfig] at hsolve
  exact ⟨task, root, s, _, hload, hsearch.symm.trans hsolve, hvisits,
    (hresumes root 20 s _ [] hvisits).2.1⟩

end TemporalPlanning
