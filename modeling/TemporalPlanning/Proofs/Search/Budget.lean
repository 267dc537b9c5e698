import Mathlib.Data.Prod.Lex
import TemporalPlanning.Proofs.Search.CutShort

/-!
# The budget of a search

`Task.explore` counts its budget down and so cannot but end. Here the search is taken as a loop that
counts its decisions up: it goes in rounds from one `Task.Moment` to the next (`Task.round`), and
nothing bounds the number of rounds but the test whether the budget is spent. The loop ends even so
(`Task.wellFounded_round`). A decision uses up budget; between two decisions a frame is made once,
and with every frame that is given up the stack gets smaller. It ends with the answer of `Task.run`
and in no other way (`Task.exists_performs`, `Task.Performs.eq_run`).

The budget is looked at in one place of the loop only. As long as it is not spent there, a loop with
a larger budget goes the same way (`Task.round_withBudget`), so that a plan that was found, or that
everything was tried, does not depend on the budget (`Task.run_within_budget`).
-/

namespace TemporalPlanning

namespace Task

/-- A search between two rounds. -/
structure Moment where
  /-- Whether a repair was just carried out, so that the next flaw has to be looked for. -/
  fresh : Bool
  plan : PartialPlan
  stack : List Frame
  /-- The decisions tried so far, whether they were accepted or not. -/
  tried : List Decision := []

variable (task : Task)

/-- A round of the search: it makes a frame for the next flaw, gives up a frame or tries a decision,
unless the search ends. -/
def round (root : List String) (m : Moment) : Except Fault (Answer ⊕ Moment) :=
  if m.fresh then do
    match ← task.nextFlaw m.plan with
    | none => return .inl (.ok (← task.extract m.plan))
    | some flaw =>
      let candidates ← Candidates.ofFlaw task m.plan flaw
      return .inr { m with fresh := false, stack := ⟨flaw, candidates, m.plan.mark⟩ :: m.stack }
  else
    match m.stack with
    | [] => return .inl (.error (.exhausted root))
    -- the budget is spent or not before the search goes back to the frame
    | frame :: outer =>
      if task.config.maxDecisions ≤ m.tried.length then do
        return .inl (← task.cutShort m.plan m.tried.length)
      else do
        let s ← m.plan.undoTo frame.mark
        match ← frame.candidates.next s with
        | (none, _) => return .inr { m with plan := s, stack := outer }
        | (some d, candidates) =>
          let stack := { frame with candidates } :: outer
          -- a decision counts as soon as it is tried, whatever comes of it
          let tried := m.tried ++ [d]
          match task.apply d s with
          | .done () s => return .inr ⟨true, s, stack, tried⟩
          | .stuck _ s => return .inr ⟨false, s, stack, tried⟩
          | .forbidden fault => .error fault

/-- `task.Ends root m outcome tried`: from `m` on, round after round, the search ends with
`outcome`, and all in all it has tried the decisions `tried`. -/
inductive Ends (root : List String) : Moment → Except Fault Answer → List Decision → Prop
  | fault {m : Moment} {why : Fault} (h : task.round root m = .error why) :
      Ends root m (.error why) m.tried
  | answer {m : Moment} {answer : Answer} (h : task.round root m = .ok (.inl answer)) :
      Ends root m (.ok answer) m.tried
  | next {m m' : Moment} {outcome : Except Fault Answer} {tried : List Decision}
      (h : task.round root m = .ok (.inr m')) (hrest : Ends root m' outcome tried) :
      Ends root m outcome tried

/-- `task.Performs outcome tried`: the search ends with `outcome`, and it has tried the decisions
`tried`. -/
inductive Performs : Except Fault Answer → List Decision → Prop
  | forbidden {why : Fault} (hs : task.start = .forbidden why) : Performs (.error why) []
  | contradiction {why : DeadEnd} {s : PartialPlan} (hs : task.start = .stuck why s) :
      Performs (.ok (.error (.exhausted [why.message]))) []
  | undescribed {why : Fault} {s : PartialPlan} (hs : task.start = .done () s)
      (hroot : task.describeOpenFlaws s = .error why) : Performs (.error why) []
  | rounds {s : PartialPlan} {root : List String} {outcome : Except Fault Answer}
      {tried : List Decision} (hs : task.start = .done () s)
      (hroot : task.describeOpenFlaws s = .ok root)
      (hends : task.Ends root { fresh := true, plan := s, stack := [] } outcome tried) :
      Performs outcome tried

/-- The same task with another budget. -/
def withBudget (n : Nat) : Task := { task with config := { task.config with maxDecisions := n } }

variable {task : Task} {clock : Clock} {root : List String} {m m' : Moment}
  {outcome : Except Fault Answer} {tried : List Decision}

/-! ### The loop ends -/

/-- A search gives up here: there are frames, but no decision is left. -/
def Moment.Spent (m : Moment) (budget : Nat) : Prop :=
  m.fresh = false ∧ m.stack ≠ [] ∧ budget ≤ m.tried.length

/-- A round leads on: a frame was made for the next flaw, or with a decision left a frame was given
up or a decision tried. -/
def Moment.LeadsTo (m : Moment) (budget : Nat) (m' : Moment) : Prop :=
  (m.fresh = true ∧ m'.fresh = false ∧ m'.tried = m.tried) ∨
  m.fresh = false ∧ m.tried.length < budget ∧
    ((m'.fresh = false ∧ m'.stack.length < m.stack.length ∧ m'.tried = m.tried) ∨
      ∃ d, m'.tried = m.tried ++ [d])

/-- What a round comes to that meets no fault: the search ends, or the round leads on. -/
inductive Moment.ComesTo (m : Moment) (root : List String) (budget : Nat) : Answer ⊕ Moment → Prop
  | plan (p : Plan) : ComesTo m root budget (.inl (.ok p))
  | exhausted : ComesTo m root budget (.inl (.error (.exhausted root)))
  | cutShort (h : m.Spent budget) (flaws : List String) :
      ComesTo m root budget (.inl (.error (.cutShort m.tried.length flaws)))
  | next {m' : Moment} (h : m.LeadsTo budget m') : ComesTo m root budget (.inr m')

/-- With a frame left and the budget spent, a round cuts the search short. -/
theorem round_of_spent (h : m.Spent task.config.maxDecisions) :
    task.round root m =
      task.cutShort m.plan m.tried.length >>= fun answer => .ok (.inl answer) := by
  obtain ⟨hfresh, hstack, hspent⟩ := h
  rw [round, hfresh, if_neg Bool.false_ne_true]
  split
  · contradiction
  · exact if_pos hspent

/-- A round on a fresh plan selects a flaw and opens a frame for it, or returns the plan if there is
no flaw left. It tries no decision. -/
theorem comesTo_of_fresh {next : Answer ⊕ Moment} (hfresh : m.fresh = true)
    (h : task.round root m = .ok next) : m.ComesTo root task.config.maxDecisions next := by
  rw [round, if_pos hfresh] at h
  obtain ⟨flaw?, -, h⟩ := Fault.bind_eq_ok.mp h
  cases flaw? with
  | none =>
    obtain ⟨p, -, h⟩ := Fault.bind_eq_ok.mp h
    obtain rfl := Except.ok.inj h
    exact .plan p
  -- a frame for the flaw is pushed, and no decision has been tried for it
  | some flaw =>
    obtain ⟨cs, -, h⟩ := Fault.bind_eq_ok.mp h
    obtain rfl := Except.ok.inj h
    exact .next (.inl ⟨hfresh, rfl, rfl⟩)

/-- With a decision left the innermost frame is given up, or its next decision is tried. Giving up
makes the stack shorter, trying uses up the budget. -/
theorem leadsTo_of_frame {next : Answer ⊕ Moment} (hfresh : m.fresh = false) {frame : Frame}
    {outer : List Frame} (hstack : m.stack = frame :: outer)
    (hleft : m.tried.length < task.config.maxDecisions) (h : task.round root m = .ok next) :
    ∃ m', next = .inr m' ∧ m.LeadsTo task.config.maxDecisions m' := by
  rw [round, hfresh, if_neg Bool.false_ne_true, hstack] at h
  dsimp only at h
  rw [if_neg (Nat.not_le_of_lt hleft)] at h
  obtain ⟨s, -, h⟩ := Fault.bind_eq_ok.mp h
  obtain ⟨⟨d?, cs⟩, -, h⟩ := Fault.bind_eq_ok.mp h
  cases d? with
  | none =>
    -- giving up a frame tries nothing
    have hshorter : outer.length < m.stack.length := by
      rw [hstack]
      exact Nat.lt_succ_self _
    exact ⟨_, (Except.ok.inj h).symm, .inr ⟨hfresh, hleft, .inl ⟨rfl, hshorter, rfl⟩⟩⟩
  | some d =>
    dsimp only at h
    cases happly : task.apply d s with
    -- accepted or not, the decision was tried
    | done u s' | stuck why s' =>
      rw [happly] at h
      exact ⟨_, (Except.ok.inj h).symm, .inr ⟨hfresh, hleft, .inr ⟨d, rfl⟩⟩⟩
    | forbidden why =>
      rw [happly] at h
      cases h

/-- What a round comes to, whatever moment it starts from. It ends with an answer, selects a flaw,
goes back over a frame that has no candidates left, or tries one decision more. -/
theorem comesTo_of_round {next : Answer ⊕ Moment} (h : task.round root m = .ok next) :
    m.ComesTo root task.config.maxDecisions next := by
  cases hfresh : m.fresh with
  | true => exact comesTo_of_fresh hfresh h
  | false =>
    -- without a frame nothing is left to try
    cases hstack : m.stack with
    | nil =>
      rw [round, hfresh, if_neg Bool.false_ne_true, hstack] at h
      obtain rfl := Except.ok.inj h
      exact .exhausted
    | cons frame outer =>
      rcases Nat.lt_or_ge m.tried.length task.config.maxDecisions with hleft | hspent
      · obtain ⟨m', rfl, hleads⟩ := leadsTo_of_frame hfresh hstack hleft h
        exact .next hleads
      · -- the open flaws of where the search stands are described, and it ends
        have hspent : m.Spent task.config.maxDecisions := ⟨hfresh, by simp [hstack], hspent⟩
        rw [round_of_spent hspent] at h
        obtain ⟨answer, hanswer, h⟩ := Fault.bind_eq_ok.mp h
        obtain ⟨flaws, -, hanswer⟩ := Fault.bind_eq_ok.mp hanswer
        obtain rfl := Except.ok.inj hanswer
        obtain rfl := Except.ok.inj h
        exact .cutShort hspent flaws

/-- A round that does not end the search leads to a next moment. -/
theorem leadsTo_of_round (h : task.round root m = .ok (.inr m')) :
    m.LeadsTo task.config.maxDecisions m' := by
  cases comesTo_of_round h with
  | next hleads => exact hleads

/-- No round tries a decision beyond the budget. -/
theorem Moment.LeadsTo.length_le {budget : Nat} (h : m.LeadsTo budget m')
    (hle : m.tried.length ≤ budget) : m'.tried.length ≤ budget := by
  rcases h with ⟨-, -, htried⟩ | ⟨-, hlt, ⟨-, -, htried⟩ | ⟨d, htried⟩⟩
  · rwa [htried]
  · rwa [htried]
  · rw [htried, List.length_append, List.length_singleton]
    exact hlt

/-- What every round makes less: the budget that is left, and as long as no decision is tried,
whether a flaw has to be looked for, and then the number of frames. -/
def Moment.measure (m : Moment) (budget : Nat) : Nat ×ₗ Nat ×ₗ Nat :=
  toLex (budget - m.tried.length, toLex (m.fresh.toNat, m.stack.length))

/-- Each round comes closer to the end: the decisions left count most, then whether a flaw is still
to be selected, then the frames. -/
theorem Moment.LeadsTo.measure_lt {budget : Nat} (h : m.LeadsTo budget m') :
    m'.measure budget < m.measure budget := by
  simp only [Moment.measure, Prod.Lex.toLex_lt_toLex]
  -- each case lowers one part of the measure: freshness, the stack, or the decisions left
  rcases h with ⟨hfresh, hfresh', htried⟩ | ⟨hfresh, hlt, hnext⟩
  · rw [htried, hfresh, hfresh']
    exact .inr ⟨rfl, .inl Nat.one_pos⟩
  · rcases hnext with ⟨hfresh', hstack, htried⟩ | ⟨d, htried⟩
    · rw [htried, hfresh, hfresh']
      exact .inr ⟨rfl, .inr ⟨rfl, hstack⟩⟩
    · refine .inl ?_
      rw [htried, List.length_append, List.length_singleton]
      omega

/-- **There is no endless search.** -/
theorem wellFounded_round (task : Task) (root : List String) :
    WellFounded fun m' m : Moment => task.round root m = .ok (.inr m') :=
  Subrelation.wf (fun h => (leadsTo_of_round h).measure_lt)
    (InvImage.wf (fun m : Moment => m.measure task.config.maxDecisions) wellFounded_lt)

/-- The loop goes one way only: a round is a function of the moment, and it is an answer, a fault or
a next moment. -/
theorem Ends.unique (h : task.Ends root m outcome tried) {outcome' : Except Fault Answer}
    {tried' : List Decision} (h' : task.Ends root m outcome' tried') :
    outcome = outcome' ∧ tried = tried' := by
  induction h with
  | fault h =>
    cases h' with
    | fault h' => exact ⟨congrArg _ (Except.error.inj (h.symm.trans h')), rfl⟩
    | answer h' | next h' => cases h.symm.trans h'
  -- the same round cannot end in two ways
  | answer h =>
    cases h' with
    | answer h' => exact ⟨congrArg _ (Sum.inl.inj (Except.ok.inj (h.symm.trans h'))), rfl⟩
    | fault h' | next h' => cases h.symm.trans h'
  -- and from the same next moment the rest is the same by induction
  | next h _ ih =>
    cases h' with
    | fault h' | answer h' => cases h.symm.trans h'
    | next h' hrest' =>
      obtain rfl := Sum.inr.inj (Except.ok.inj (h.symm.trans h'))
      exact ih hrest'

/-! ### How it ends -/

/-- What `Task.explore` and `Task.select` make of a search that is on its way. -/
def answerFrom (task : Task) (clock : Clock) (root : List String) (m : Moment) :
    Except Fault Answer :=
  let go := task.explore root (task.config.maxDecisions - m.tried.length)
  if m.fresh then task.select m.tried.length go clock m.plan m.stack else go clock m.plan m.stack

/-- A new partial plan is dealt with as in the loop. Without a deadline the clock is never asked, so
that the clock on the two sides may differ by a reading. -/
theorem answerFrom_fresh (hdeadline : task.config.deadline = none) (s : PartialPlan)
    (stack : List Frame) (tried : List Decision) :
    task.answerFrom clock root ⟨true, s, stack, tried⟩ =
      task.round root ⟨true, s, stack, tried⟩ >>= Sum.elim .ok (task.answerFrom clock root) := by
  show task.select tried.length _ clock s stack = _
  rw [select_eq hdeadline (timeless_explore hdeadline _ _), round, if_pos rfl]
  dsimp only [bind, Except.bind]
  -- both select a flaw first, and neither counts that as a decision
  cases task.nextFlaw s with
  | error why => rfl
  | ok flaw? =>
    cases flaw? with
    | none =>
      dsimp only
      cases task.extract s <;> rfl
    | some flaw =>
      dsimp only
      cases Candidates.ofFlaw task s flaw <;> rfl

/-- The frames are gone through as in the loop. The search counts the decisions that are left down
to 0, the loop counts those tried up to the budget. -/
theorem answerFrom_stale (hdeadline : task.config.deadline = none) (s : PartialPlan)
    (stack : List Frame) {tried : List Decision} (hle : tried.length ≤ task.config.maxDecisions) :
    task.answerFrom clock root ⟨false, s, stack, tried⟩ =
      task.round root ⟨false, s, stack, tried⟩ >>= Sum.elim .ok (task.answerFrom clock root) := by
  show task.explore root (task.config.maxDecisions - tried.length) clock s stack = _
  rw [round, if_neg Bool.false_ne_true]
  cases stack with
  | nil => cases task.config.maxDecisions - tried.length <;> rfl
  | cons frame outer =>
    dsimp only
    -- the budget is tested before the frame is looked at, in both
    split
    next hspent =>
      have hspent : tried.length = task.config.maxDecisions := le_antisymm hle hspent
      rw [← hspent, Nat.sub_self]
      show task.cutShort s task.config.maxDecisions = _
      rw [← hspent]
      cases task.cutShort s tried.length <;> rfl
    next hbudget =>
      obtain ⟨n, hn⟩ : ∃ n, task.config.maxDecisions = tried.length + (n + 1) :=
        Nat.exists_eq_add_of_lt (Nat.lt_of_not_le hbudget)
      have hleft : task.config.maxDecisions - tried.length = n + 1 := by omega
      rw [hleft, explore_cons hdeadline]
      dsimp only [bind, Except.bind]
      cases s.undoTo frame.mark with
      | error why => rfl
      | ok s₁ =>
        dsimp only
        cases frame.candidates.next s₁ with
        | error why => rfl
        | ok next =>
          obtain ⟨d?, cs⟩ := next
          cases d? with
          -- the frame is given up, and the same number of decisions is left
          | none =>
            show _ = task.explore root (task.config.maxDecisions - tried.length) clock s₁ outer
            rw [hleft]
          | some d =>
            -- whatever comes of the decision, it is one more that was tried
            have hlength : (tried ++ [d]).length = tried.length + 1 := by simp
            have hleft' : task.config.maxDecisions - (tried ++ [d]).length = n := by omega
            dsimp only
            cases task.apply d s₁ with
            | forbidden why => rfl
            | stuck why s₂ =>
              show task.explore root n clock s₂ _ = task.explore root _ clock s₂ _
              rw [hleft']
            | done u s₂ =>
              show task.select _ _ clock s₂ _ = task.select _ _ clock s₂ _
              rw [hleft', hlength, show task.config.maxDecisions - (n + 1) = tried.length by omega]

/-- The answer from a moment is that of the next round, or the answer from there. -/
theorem answerFrom_eq_bind (hdeadline : task.config.deadline = none)
    (hle : m.tried.length ≤ task.config.maxDecisions) :
    task.answerFrom clock root m =
      task.round root m >>= Sum.elim .ok (task.answerFrom clock root) := by
  obtain ⟨fresh, s, stack, tried⟩ := m
  cases fresh with
  | true => exact answerFrom_fresh hdeadline s stack tried
  | false => exact answerFrom_stale hdeadline s stack hle

/-- **The search ends, and how it ends is what `explore` and `select` say.** The clauses on how it
ends are those of the loop that the search runs: a fault, an answer, or one more round. -/
theorem exists_ends (hdeadline : task.config.deadline = none)
    (hle : m.tried.length ≤ task.config.maxDecisions) :
    ∃ tried, task.Ends root m (task.answerFrom clock root m) tried ∧
      tried.length ≤ task.config.maxDecisions := by
  -- on the rounds, each of which leads to a smaller moment
  induction m using (task.wellFounded_round root).induction with
  | _ m ih =>
  -- one round, and then what the rest of the search does
  rw [answerFrom_eq_bind hdeadline hle]
  cases hround : task.round root m with
  | error why => exact ⟨m.tried, .fault hround, hle⟩
  | ok next =>
    cases next with
    | inl answer => exact ⟨m.tried, .answer hround, hle⟩
    | inr m' =>
      obtain ⟨tried, hends, htried⟩ := ih m' hround ((leadsTo_of_round hround).length_le hle)
      exact ⟨tried, .next hround hends, htried⟩

/-- **A search ends with the answer of `run`**, and it tries no decision beyond its budget. -/
theorem exists_performs (hdeadline : task.config.deadline = none) :
    ∃ tried, task.Performs (task.run clock) tried ∧
      tried.length ≤ task.config.maxDecisions := by
  rw [run]
  cases hstart : task.start with
  -- no decision has been tried where the search ends before its rounds
  | forbidden why => exact ⟨[], .forbidden hstart, Nat.zero_le _⟩
  | stuck why s => exact ⟨[], .contradiction hstart, Nat.zero_le _⟩
  | done u s =>
    dsimp only
    cases hroot : task.describeOpenFlaws s with
    | error why => exact ⟨[], .undescribed hstart hroot, Nat.zero_le _⟩
    | ok root =>
      obtain ⟨tried, hends, hle⟩ := @exists_ends task clock root
        { fresh := true, plan := s, stack := [] } hdeadline (Nat.zero_le _)
      exact ⟨tried, .rounds hstart hroot hends, hle⟩

/-- What a search performs is what it returns; without a deadline the clock plays no part in it. -/
theorem Performs.eq_run (h : task.Performs outcome tried)
    (hdeadline : task.config.deadline = none) : outcome = task.run clock := by
  rw [run]
  -- a search may end before the first round: at the start, or at the description of its flaws
  cases h with
  | forbidden hs => rw [hs]
  | contradiction hs =>
    rw [hs]
    rfl
  | undescribed hs hroot =>
    rw [hs]
    dsimp only
    rw [hroot]
    rfl
  | rounds hs hroot hends =>
    -- the rounds end as `run` does, and they end in one way only
    obtain ⟨_, hends', -⟩ := @exists_ends task clock _
      { fresh := true, plan := _, stack := [] } hdeadline (Nat.zero_le _)
    rw [hs]
    dsimp only
    rw [hroot]
    exact (hends.unique hends').1

/-! ### What the budget decides -/

/-- A search starts the same with every budget. -/
theorem start_withBudget (task : Task) (n : Nat) : (task.withBudget n).start = task.start := by
  simp only [start, setUp, placeAllFacts_eq]
  rfl

/-- With decisions left the size of the budget does not matter to a round. The budget is read in two
places only, where it is compared with the number of decisions tried, and both comparisons come out
alike. -/
theorem round_withBudget (h : ¬ m.Spent task.config.maxDecisions) {n : Nat}
    (hle : task.config.maxDecisions ≤ n) :
    (task.withBudget n).round root m = task.round root m := by
  rw [round, round]
  cases hfresh : m.fresh with
  | true => rfl
  | false =>
    rw [if_neg Bool.false_ne_true, if_neg Bool.false_ne_true]
    cases hstack : m.stack with
    | nil => rfl
    | cons frame outer =>
      -- the frame is reached with a decision left, under the smaller budget and so under the larger
      -- one
      have hbudget : ¬ task.config.maxDecisions ≤ m.tried.length :=
        fun hspent => h ⟨hfresh, by simp [hstack], hspent⟩
      have hbudget' : ¬ (task.withBudget n).config.maxDecisions ≤ m.tried.length :=
        fun hspent => hbudget (hle.trans hspent)
      dsimp only
      rw [if_neg hbudget, if_neg hbudget']
      rfl

/-- A search that is cut short has tried as many decisions as its budget allows. -/
theorem Ends.spent (h : task.Ends root m outcome tried) {k : Nat} {flaws : List String}
    (hcut : outcome = .ok (.error (.cutShort k flaws))) :
    k = tried.length ∧ task.config.maxDecisions ≤ k := by
  induction h with
  | fault => cases hcut
  | answer hround =>
    obtain rfl := Except.ok.inj hcut
    cases comesTo_of_round hround with
    | cutShort hspent flaws => exact ⟨rfl, hspent.2.2⟩
  | next _ _ ih => exact ih hcut

/-- A search that is not cut short ends as it does with a larger budget, after the same decisions.
-/
theorem Ends.withBudget (h : task.Ends root m outcome tried) {answer : Answer}
    (houtcome : outcome = .ok answer) (hcut : ∀ k flaws, answer ≠ .error (.cutShort k flaws))
    {n : Nat} (hle : task.config.maxDecisions ≤ n) :
    (task.withBudget n).Ends root m outcome tried := by
  -- where the budget is spent, there is no next round, and no other answer
  have unspent : ∀ m next, task.round root m = .ok next →
      (∀ answer', next = .inl answer' → answer' = answer) → ¬ m.Spent task.config.maxDecisions := by
    intro m next hround hnext hspent
    rw [round_of_spent hspent] at hround
    obtain ⟨answer', hanswer, hnext'⟩ := Fault.bind_eq_ok.mp hround
    obtain ⟨flaws, -, hanswer⟩ := Fault.bind_eq_ok.mp hanswer
    cases hanswer
    cases hnext'
    exact hcut _ _ (hnext _ rfl).symm
  -- along the rounds, each of which is the same under both budgets
  induction h with
  | fault => cases houtcome
  | @answer m answer' hround =>
    obtain rfl := Except.ok.inj houtcome
    refine .answer ?_
    rw [round_withBudget (unspent m _ hround (by simp)) hle]
    exact hround
  | @next m m' outcome tried hround _ ih =>
    refine .next ?_ (ih houtcome)
    rw [round_withBudget (unspent m _ hround (by simp)) hle]
    exact hround

/-- So does the search as a whole, with its start and its description of flaws. -/
theorem Performs.withBudget (h : task.Performs outcome tried) {answer : Answer}
    (houtcome : outcome = .ok answer) (hcut : ∀ k flaws, answer ≠ .error (.cutShort k flaws))
    {n : Nat} (hle : task.config.maxDecisions ≤ n) :
    (task.withBudget n).Performs outcome tried := by
  have hstart := start_withBudget task n
  cases h with
  | forbidden hs => exact .forbidden (hstart.trans hs)
  | contradiction hs => exact .contradiction (hstart.trans hs)
  | undescribed hs hroot => exact .undescribed (hstart.trans hs) hroot
  | rounds hs hroot hends =>
    exact .rounds (hstart.trans hs) hroot (hends.withBudget houtcome hcut hle)

/-- **A search ends within its budget, and a larger one would not change its answer.** There is no
endless sequence of rounds, and no more decisions are tried than the budget allows. The search is
cut short only when it has tried just as many; if it is not, it gives the same answer with every
larger budget. -/
theorem run_within_budget (hdeadline : task.config.deadline = none) :
    (∀ root, WellFounded fun m' m : Moment => task.round root m = .ok (.inr m')) ∧
    ∃ tried, task.Performs (task.run clock) tried ∧ tried.length ≤ task.config.maxDecisions ∧
      (∀ k flaws, task.run clock = .ok (.error (.cutShort k flaws)) →
        k = task.config.maxDecisions ∧ tried.length = k) ∧
      ∀ answer, task.run clock = .ok answer → (∀ k flaws, answer ≠ .error (.cutShort k flaws)) →
        ∀ n clock', task.config.maxDecisions ≤ n → (task.withBudget n).run clock' = .ok answer := by
  obtain ⟨tried, hperforms, hle⟩ := @exists_performs task clock hdeadline
  refine ⟨task.wellFounded_round, tried, hperforms, hle, fun k flaws hcut => ?_,
    fun answer hanswer hcut n clock' hn => ?_⟩
  · -- only a round that finds the budget spent cuts the search short
    generalize task.run clock = outcome at hperforms hcut
    cases hperforms with
    | rounds _ _ hends =>
      obtain ⟨hk, hspent⟩ := hends.spent hcut
      exact ⟨by omega, hk.symm⟩
    | forbidden | contradiction | undescribed => cases hcut
  · -- the decisions that were tried are tried again under the larger budget, and lead to the same
    -- answer
    have hperforms' := hperforms.withBudget hanswer hcut hn
    rw [hanswer] at hperforms'
    exact (hperforms'.eq_run hdeadline).symm

end Task

/-- With twice its budget the search finds the same plan for the lantern. The decisions that it
tries are the same, as the budget only says when to give up. -/
theorem run_within_budget_lantern : ∃ (task : Task) (tried : List Decision),
    Model.load lantern = .ok task.model ∧ task.config = { maxDecisions := 20 } ∧
      task.Performs (.ok (.ok lanternPlan)) tried ∧ tried.length ≤ 20 ∧
      (task.withBudget 40).run .stopped = .ok (.ok lanternPlan) := by
  obtain ⟨m, hload⟩ := exists_load_lantern
  have hrun := solve_lantern
  rw [Problem.solve, hload] at hrun
  change Task.run ⟨m, { maxDecisions := 20 }⟩ .stopped = _ at hrun
  -- the plan is no matter of the budget, as long as it was found within it
  obtain ⟨-, tried, hperforms, hle, -, hstable⟩ :=
    @Task.run_within_budget ⟨m, { maxDecisions := 20 }⟩ .stopped rfl
  rw [hrun] at hperforms
  exact ⟨⟨m, { maxDecisions := 20 }⟩, tried, hload, rfl, hperforms, hle,
    hstable _ hrun (by simp) 40 .stopped (Nat.le_add_right 20 20)⟩

end TemporalPlanning
