import TemporalPlanning.Proofs.Model.Load
import TemporalPlanning.Proofs.Plan.Solution
import TemporalPlanning.Proofs.Search.Goals
import TemporalPlanning.Proofs.Search.Reading

/-!
# Goals in their order

If goals are reached in their order of declaration, the entry of each timeline in a plan has the
states of its goals in this order, at places of their own (`Problem.goals_in_order_of_solve`).

The search serves the goals one after the other, because an open goal comes before all other flaws
and the first one before the others. When it comes to a goal, the tokens that serve the earlier ones
stand in the order of their goals, and the token that serves this one stands behind all of them: it
is above the floor, which is the place of the last of them (`Task.lt_of_isAbove_goalFloor`). Later
decisions let the timelines unfold, so that the order stays (`Task.Path.servesInTurn`).
-/

namespace TemporalPlanning

namespace Chronicle

/-! ### Places in a sequence -/

/-- What stands before a place in a list is in order there already. It places the tokens of the
earlier goals in front of the floor that the next goal is inserted above. -/
theorem sublist_take_of_forall_lt {l l' : List TokenId} (h : l'.Sublist l) {position : Nat}
    (hlt : ∀ id ∈ l', ∀ j : Nat, l[j]? = some id → j < position) :
    l'.Sublist (l.take position) := by
  rw [← List.take_append_drop position l] at h
  -- the list splits into what is in front of the position and what is behind it
  obtain ⟨front, back, rfl, hfront, hback⟩ := List.sublist_append_iff.mp h
  -- nothing is left for the places from there on
  have hnil : back = [] := by
    rw [List.eq_nil_iff_forall_not_mem]
    intro id hid
    obtain ⟨k, hk⟩ := List.mem_iff_getElem?.mp (hback.subset hid)
    rw [List.getElem?_drop] at hk
    have := hlt id (List.mem_append_right _ hid) _ hk
    omega
  rw [hnil, List.append_nil]
  exact hfront

/-- What is listed in order before a position can be continued with what stands there. -/
theorem sublist_concat_of_sublist_take {l l' : List TokenId} {position : Nat} {id : TokenId}
    (h : l'.Sublist (l.take position)) (hid : l[position]? = some id) : (l' ++ [id]).Sublist l := by
  have htake : l.take (position + 1) = l.take position ++ [id] := by
    rw [List.take_add_one, hid]
    rfl
  calc (l' ++ [id]).Sublist (l.take position ++ [id]) := h.append_right _
    _ = l.take (position + 1) := htake.symm
    List.Sublist _ l := List.take_sublist _ _

/-- The token that serves a goal, if there is the goal and it has one. -/
def servant? (c : Chronicle) (goal : Nat) : Option TokenId := c.goalSupports[goal]?.join

variable {c c' : Chronicle} {goal : Nat}

/-- A goal has a servant if its support is noted. -/
theorem servant?_eq_some {token : TokenId} :
    c.servant? goal = some token ↔ c.goalSupport? goal = .ok (some token) := by
  rw [servant?, Option.join_eq_some_iff, goalSupport?_eq_ok]

theorem servant?_of_goalSupport? {token? : Option TokenId} (h : c.goalSupport? goal = .ok token?) :
    c.servant? goal = token? := by
  rw [servant?, goalSupport?_eq_ok.mp h]
  rfl

/-- The servant of a goal depends on its support alone. -/
theorem servant?_congr (h : c'.goalSupport? goal = c.goalSupport? goal) :
    c'.servant? goal = c.servant? goal :=
  Option.ext fun token => by rw [servant?_eq_some, h, servant?_eq_some]

end Chronicle

namespace Task

variable {task : Task} {facts : Nat → Nat} {s s' : PartialPlan} {c c' : Chronicle} {i n : Nat}

/-! ### The tokens of the first goals -/

/-- The tokens that serve those of the first `n` goals that are about a timeline. -/
def goalTokens (task : Task) (c : Chronicle) (timeline n : Nat) : List TokenId :=
  ((List.range n).filter fun g =>
    (task.model.goals[g]?.map (·.timeline)) == some timeline).filterMap c.servant?

/-- One more goal adds its servant, if it is about this timeline and is served. -/
theorem goalTokens_succ : task.goalTokens c i (n + 1) = task.goalTokens c i n ++
    if (task.model.goals[n]?.map (·.timeline)) == some i then (c.servant? n).toList
    else [] := by
  rw [goalTokens, List.range_succ, List.filter_append, List.filterMap_append]
  refine congrArg _ ?_
  -- the last goal counts only if it is one of the timeline's
  cases h : (task.model.goals[n]?.map (·.timeline)) == some i with
  | true =>
    rw [List.filter_cons_of_pos (by exact h), List.filter_nil, List.filterMap_cons]
    cases c.servant? n <;> rfl
  | false =>
    rw [List.filter_cons_of_neg (by rw [h]; exact Bool.false_ne_true)]
    rfl

/-- The tokens that serve the first goals depend on the supports of those goals alone. -/
theorem goalTokens_congr (h : ∀ g < n, c'.servant? g = c.servant? g) :
    task.goalTokens c' i n = task.goalTokens c i n := by
  refine List.filterMap_congr fun g hg => h g ?_
  exact List.mem_range.mp (List.mem_filter.mp hg).1

/-- The states of the tokens that serve the first goals are those that the goals ask for. The
induction is on the number of goals looked at, and each goal of the timeline adds one token and one
state. -/
theorem filterMap_state?_goalTokens (hwf : c.WellFormed task.model facts)
    (hserved : ∀ g < n, (c.servant? g).isSome) (hn : n ≤ task.model.goals.length) :
    (task.goalTokens c i n).filterMap c.state? =
      ((task.model.goals.take n).filter (·.timeline == i)).map (·.state) := by
  induction n with
  | zero => rfl
  | succ n ih =>
    obtain ⟨id, hid⟩ := Option.isSome_iff_exists.mp (hserved n (Nat.lt_succ_self n))
    have hgoal : task.model.goals[n]? = some task.model.goals[n] := List.getElem?_eq_getElem hn
    obtain ⟨t, ht, -, hstate⟩ := hwf.goals n _ id hgoal (Chronicle.goalSupport?_eq_ok.mp
      (Chronicle.servant?_eq_some.mp hid))
    -- both lists grow at the end
    rw [goalTokens_succ, List.filterMap_append, List.take_add_one, List.filter_append,
      List.map_append, ih (fun g hg => hserved g (by omega)) (by omega), hid, hgoal]
    refine congrArg _ ?_
    -- the last goal is about the timeline or not
    by_cases htl : task.model.goals[n].timeline = i
    · simp [htl, Chronicle.state?, Chronicle.token_eq_ok.mp ht, hstate]
    · simp [htl]

/-! ### The floor -/

/-- What is above the floor of a goal is behind all tokens that serve earlier goals of the same
timeline. -/
theorem lt_of_isAbove_goalFloor (hwf : s.chronicle.WellFormed task.model facts)
    (hordering : task.config.goalOrdering = .declaration) {goal : Nat} {floor : Option Nat}
    (hfloor : task.goalFloor s goal i = .ok floor) {position : Nat}
    (habove : isAbove floor position) {host : Timeline}
    (hhost : s.chronicle.timeline ⟨i⟩ = .ok host) {token : TokenId}
    (htoken : token ∈ task.goalTokens s.chronicle i goal) {j : Nat}
    (hj : host.sequence[j]? = some token) : j < position := by
  rw [goalFloor, hordering] at hfloor
  obtain ⟨tokens, htokens, hfloor⟩ := Fault.bind_eq_ok.mp hfloor
  obtain ⟨places, hplaces, hfloor⟩ := Fault.bind_eq_ok.mp hfloor
  obtain rfl := Except.ok.inj hfloor
  have hmem : token ∈ tokens.filterMap id := by
    obtain ⟨g, hg, hserves⟩ := List.mem_filterMap.mp htoken
    obtain ⟨token?, hmem, htoken?⟩ := (Fault.mem_mapM htokens).1 g hg
    obtain rfl := Except.ok.inj (htoken?.symm.trans (Chronicle.servant?_eq_some.mp hserves))
    exact List.mem_filterMap.mpr ⟨_, hmem, rfl⟩
  obtain ⟨j?, hmem, hj?⟩ := (Fault.mem_mapM hplaces).1 token hmem
  obtain ⟨t, host', j', ht, hhost', hj', rfl⟩ := hwf.position?_eq_ok hj?
  -- the place that was looked up is the place at which the token stands
  obtain ⟨t', ht', htl⟩ := (hwf.sequence _ _ hhost).2 token (List.mem_of_getElem? hj)
  obtain rfl := Chronicle.token_inj ht ht'
  obtain rfl := Chronicle.timeline_inj hhost (htl ▸ hhost')
  obtain rfl := Chronicle.place_unique (hwf.sequence _ _ hhost).1 hj hj'
  have hplace : j ∈ places.filterMap id := List.mem_filterMap.mpr ⟨some j, hmem, rfl⟩
  -- the floor is the greatest of the places
  obtain ⟨f, hf⟩ := Option.isSome_iff_exists.mp (List.isSome_max?_of_mem hplace)
  rw [hf] at habove
  calc j ≤ f := (List.max?_eq_some_iff.mp hf).2 j hplace
    _ < position := of_decide_eq_true habove

/-! ### Serving goals in turn -/

/-- The first `n` goals are served and no other ones, and on each declared timeline the tokens that
serve them stand in the order of the goals. -/
structure ServesInTurn (task : Task) (n : Nat) (c : Chronicle) : Prop where
  served : ∀ g < task.model.goals.length, (c.servant? g).isSome ↔ g < n
  sublist : ∀ i < task.model.timelines.length, ∃ host, c.timeline ⟨i⟩ = .ok host ∧
    (task.goalTokens c i n).Sublist host.sequence

/-- If the flaw that comes next is an open goal, it is the first of all open goals. -/
theorem exists_openGoals_of_nextFlaw {goal : Nat}
    (hflaw : task.nextFlaw s = .ok (some (.openGoal goal))) :
    ∃ rest, ((List.range task.model.goals.length).filter
      fun g => (s.chronicle.servant? g).isNone) = goal :: rest := by
  obtain ⟨goals, hgoals, hfirst⟩ := nextFlaw_eq_ok hflaw
  obtain ⟨numbers, hnumbers, heq⟩ := Fault.bind_eq_ok.mp hgoals
  obtain rfl := Except.ok.inj heq
  -- all goals were looked up, and those without token were kept
  have hfilter : Fault.filter (isGoalOpen s) (List.range task.model.goals.length) =
      .ok ((List.range task.model.goals.length).filter
        fun g => (s.chronicle.servant? g).isNone) := by
    refine Fault.filter_eq_ok fun g hg => ?_
    obtain ⟨isOpen, hisOpen⟩ := (Fault.mem_filter hnumbers).1 g hg
    obtain ⟨token?, htoken, rfl⟩ := isGoalOpen_eq_ok.mp hisOpen
    rw [hisOpen, Chronicle.servant?_of_goalSupport? htoken]
  obtain rfl := Except.ok.inj (hfilter.symm.trans hnumbers)
  rcases hfirst with ⟨hhead, -⟩ | ⟨-, -, flaws, hflaws, hhead⟩
  · cases hopen : (List.range task.model.goals.length).filter
        fun g => (s.chronicle.servant? g).isNone with
    | cons g rest =>
      rw [hopen] at hhead
      obtain rfl := Flaw.openGoal.inj (Option.some.inj hhead)
      exact ⟨rest, rfl⟩
    | nil =>
      -- without open goals the flaw is about a condition
      rw [hopen] at hhead
      obtain ⟨e, -, hmem⟩ := List.mem_flatMap.mp (List.mem_of_head? hhead)
      obtain ⟨_, -, heq⟩ := List.mem_map.mp hmem
      exact Flaw.noConfusion heq
  · -- or about a conflict
    obtain ⟨_, -, rfl⟩ := Fault.map_eq_ok.mp hflaws
    obtain ⟨_, -, heq⟩ := List.mem_map.mp (List.mem_of_head? hhead)
    exact Flaw.noConfusion heq

/-- The goal to be served next is the first one that is not served. Open goals are listed in the
order of their declaration, and all goals before the given number are served. -/
theorem ServesInTurn.eq_of_nextFlaw (h : task.ServesInTurn n s.chronicle) {goal : Nat}
    (hflaw : task.nextFlaw s = .ok (some (.openGoal goal))) :
    goal = n ∧ goal < task.model.goals.length := by
  obtain ⟨rest, hrest⟩ := exists_openGoals_of_nextFlaw hflaw
  -- open goals are listed in order
  have hmem : ∀ g, g ∈ goal :: rest ↔ g < task.model.goals.length ∧ ¬ g < n := by
    intro g
    rw [← hrest, List.mem_filter, List.mem_range, Option.isNone_iff_eq_none,
      ← Option.not_isSome_iff_eq_none]
    exact and_congr_right fun hg => not_congr (h.served g hg)
  have hsorted : (goal :: rest).Pairwise (· < ·) := by
    rw [← hrest]
    exact List.pairwise_lt_range.filter _
  obtain ⟨hlt, hge⟩ := (hmem goal).mp List.mem_cons_self
  refine ⟨?_, hlt⟩
  -- goal `n` is open too, so that it is listed first or after a smaller one, which would be served
  rcases List.mem_cons.mp ((hmem n).mpr ⟨by omega, lt_irrefl n⟩) with heq | hlater
  · exact heq.symm
  · have := (List.pairwise_cons.mp hsorted).1 n hlater
    omega

/-- Repairs of other flaws leave the tokens in order. New tokens may come between them, but the
order of those that are there does not change. -/
theorem ServesInTurn.of_sparesGoals (h : task.ServesInTurn n c) (hunfolds : c.Unfolds c')
    (hspares : c.SparesGoals c') : task.ServesInTurn n c' := by
  -- the goals are served by the tokens that served them before
  have hsupport : c'.servant? = c.servant? := by
    funext g
    rw [Chronicle.servant?, Chronicle.servant?, hspares.goalSupports]
  refine ⟨by rw [hsupport]; exact h.served, fun i hi => ?_⟩
  obtain ⟨host, hhost, hsublist⟩ := h.sublist i hi
  obtain ⟨host', hhost', hunfold⟩ := hunfolds.timeline _ host hhost
  refine ⟨host', hhost', ?_⟩
  rw [goalTokens_congr fun g _ => congrFun hsupport g]
  exact hsublist.trans hunfold.sequence

/-- The token that serves the next goal stands behind those that serve the goals before it. Under
this ordering the floor is the last place of an earlier goal of the timeline, and the new token
stands above it. -/
theorem ServesInTurn.serves (h : task.ServesInTurn n s.chronicle)
    (hwf : s.chronicle.WellFormed task.model facts)
    (hordering : task.config.goalOrdering = .declaration)
    (hunfolds : s.chronicle.Unfolds s'.chronicle) {g : GroundRef} {token : TokenId}
    (hserves : task.Serves s s' n g token) : task.ServesInTurn (n + 1) s'.chronicle := by
  refine ⟨fun k hk => ?_, fun i hi => ?_⟩
  · -- the goals that are served are those before, and this one
    by_cases hkn : k = n
    · rw [hkn, Chronicle.servant?_of_goalSupport? hserves.goalSupport?_self]
      exact iff_of_true rfl (Nat.lt_succ_self n)
    · rw [Chronicle.servant?_congr (hserves.goalSupport?_of_ne hkn), h.served k hk]
      omega
  · obtain ⟨host, hhost, hsublist⟩ := h.sublist i hi
    have hbefore : task.goalTokens s'.chronicle i n = task.goalTokens s.chronicle i n :=
      goalTokens_congr fun k hk => Chronicle.servant?_congr (hserves.goalSupport?_of_ne hk.ne)
    rw [goalTokens_succ, hbefore, Chronicle.servant?_of_goalSupport? hserves.goalSupport?_self,
      hserves.declared]
    -- on its own timeline the token is added behind the others, the other timelines unfold
    by_cases htl : g.timeline = i
    · subst htl
      obtain ⟨floor, position, host₀, host', hfloor, habove, hhost₀, hhost', htake, hplace, -⟩ :=
        hserves.place
      obtain rfl := Chronicle.timeline_inj hhost hhost₀
      refine ⟨host', hhost', ?_⟩
      rw [if_pos (by simp)]
      -- the tokens of the earlier goals stand in front of the place, which is above the floor
      refine Chronicle.sublist_concat_of_sublist_take ?_ hplace
      rw [htake]
      exact Chronicle.sublist_take_of_forall_lt hsublist fun id hid j hj =>
        lt_of_isAbove_goalFloor hwf hordering hfloor habove hhost hid hj
    · obtain ⟨host', hhost', hunfold⟩ := hunfolds.timeline _ host hhost
      refine ⟨host', hhost', ?_⟩
      rw [if_neg (by simpa using htl), List.append_nil]
      exact hsublist.trans hunfold.sequence

/-- **On every path of the search the goals are served in turn.** The number of goals served grows
with each repair of a goal and stays put otherwise; the induction is on the path. -/
theorem Path.servesInTurn {k : Nat} (h : task.Path k s) (hm : task.model.WellFormed)
    (hordering : task.config.goalOrdering = .declaration) :
    ∃ n ≤ task.model.goals.length, task.ServesInTurn n s.chronicle := by
  -- by induction on the path; the number of goals served goes up with each open goal repaired
  induction h with
  | start hs =>
    refine ⟨0, Nat.zero_le _, fun g _ => ?_, fun i hi => ?_⟩
    · refine iff_of_false (fun hserved => ?_) (Nat.not_lt_zero g)
      obtain ⟨token, htoken⟩ := Option.isSome_iff_exists.mp hserved
      exact (unserved_of_start hm hs).1 g token (Chronicle.servant?_eq_some.mp htoken)
    · obtain ⟨host, hhost, -⟩ :=
        (tidy_of_start hm hs).chronicle.declared i _ (List.getElem?_eq_getElem hi)
      exact ⟨host, hhost, List.nil_sublist _⟩
  | @apply k s s' flaw ds d hpath hflaw hds hd hadmits hs ih =>
    obtain ⟨n, hn, hturn⟩ := ih
    have htidy := hpath.reachable.tidy hm
    have hwf := htidy.chronicle
    have hunfolds := htidy.unfolds_apply (suits_of_mem_repairs hwf hds d hd) hs
    -- repairs of other flaws leave the goals as they are
    rcases serves_or_sparesGoals htidy hds hd hs with ⟨goal, g, token, rfl, hserves⟩ | ⟨-, hspares⟩
    · obtain ⟨rfl, hlt⟩ := hturn.eq_of_nextFlaw hflaw
      exact ⟨goal + 1, hlt, hturn.serves hwf hordering hunfolds hserves⟩
    · exact ⟨n, hn, hturn.of_sparesGoals hunfolds hspares⟩

end Task

/-! ### Plans -/

/-- The goals of a timeline, in their order of declaration. -/
def Model.goalsOn (m : Model) (timeline : Nat) : List GroundRef :=
  m.goals.filter (·.timeline == timeline)

/-- **Goals are reached in their order of declaration**, if this is asked for: in the entry of each
declared timeline there are places, each behind the one before it, with the states of the goals. -/
theorem Problem.goals_in_order_of_solve {problem : Problem} {config : Config} {clock : Clock}
    {m : Model} {p : Plan} (hload : Model.load problem = .ok m)
    (hordering : config.goalOrdering = .declaration)
    (hsolve : problem.solve config clock = .ok (.ok p)) :
    ∀ i d, m.timelines[i]? = some d → ∃ e, p.timelines[i]? = some e ∧ e.name = d.name ∧
      ∃ places : List (Fin e.tokens.length), places.Pairwise (· < ·) ∧
        places.map (fun j => e.tokens[j].state) = (m.goalsOn i).map (·.state) := by
  intro i d hd
  have hm := (Model.wellFormed_of_load hload).1
  rw [Problem.solve, hload] at hsolve
  obtain ⟨k, s, -, hpath, hflaw, hp⟩ := @Task.exists_path ⟨m, config⟩ _ _ hsolve
  have hwf := (hpath.reachable.tidy hm).chronicle
  obtain ⟨n, hn, hturn⟩ := hpath.servesInTurn hm hordering
  -- without flaws all goals are served
  have hserved : ∀ g < m.goals.length, (s.chronicle.servant? g).isSome := fun g hg => by
    obtain ⟨token, htoken⟩ := (Task.of_nextFlaw_eq_none hflaw).1 g hg
    rw [Chronicle.servant?_of_goalSupport? htoken]
    rfl
  have hall : n = m.goals.length := by
    by_contra hne
    have hlt : n < m.goals.length := lt_of_le_of_ne hn hne
    exact lt_irrefl n ((hturn.served n hlt).mp (hserved n hlt))
  subst hall
  -- on its timeline the tokens of the goals stand in turn
  obtain ⟨host, hhost, hname, -⟩ := hwf.declared i d hd
  obtain ⟨host', hhost', hsublist⟩ := hturn.sublist i (List.getElem?_eq_some_iff.mp hd).1
  obtain rfl := Chronicle.timeline_inj hhost hhost'
  obtain ⟨e, he, hshows⟩ :=
    Chronicle.exists_getElem?_of_forall₂ (Task.shows_of_extract hp) hhost
  -- the states of the tokens that serve the goals are found in the entry, in the same order
  have hstates := hshows.sublist hsublist
  rw [Task.filterMap_state?_goalTokens hwf hserved hn, List.take_length] at hstates
  obtain ⟨tokens, htokens, heq⟩ := List.sublist_map_iff.mp hstates
  obtain ⟨places, hplaces, hsorted⟩ := List.sublist_eq_map_getElem htokens
  refine ⟨e, he, hshows.name.trans hname, places, hsorted, ?_⟩
  rw [Model.goalsOn, heq, hplaces, List.map_map]
  rfl

/-- A light that goes out by itself and has to be lit twice. -/
def blinker : Problem where
  timelines := [
    { className := "Light", name := some "light", states := [
      { name := "Off", conditions := [.follows "On"] },
      { name := "On", duration := .between 2 5, conditions := [.follows "Off"] }] }]
  facts := [⟨"light", "On"⟩]
  goals := [⟨"light", "On"⟩, ⟨"light", "On"⟩]

/-- The fact reaches the first goal only. The second goal asks for the same state again, and needs a
token of its own behind the first. -/
theorem goals_in_order_blinker : ∃ p : Plan,
    blinker.solve { maxDecisions := 10, goalOrdering := .declaration } .stopped = .ok (.ok p) ∧
    ∃ e, p.timelines[0]? = some e ∧ e.name = "light" ∧
      ∃ places : List (Fin e.tokens.length), places.Pairwise (· < ·) ∧
        places.map (fun j => e.tokens[j].state) = ["On", "On"] := by
  -- the light is on twice, with the state between that its condition asks for
  have hsolve : blinker.solve { maxDecisions := 10, goalOrdering := .declaration } .stopped =
      .ok (.ok ⟨[⟨"light", [⟨"On", 0, 2, []⟩, ⟨"Off", 2, 3, [.named "light"]⟩,
        ⟨"On", 3, 5, [.named "light"]⟩]⟩]⟩) := planOf_eq_some.mp (by decide +kernel)
  obtain ⟨m, d, hload, hd, hname, hgoals⟩ : ∃ m d, Model.load blinker = .ok m ∧
      m.timelines[0]? = some d ∧ d.name = "light" ∧ (m.goalsOn 0).map (·.state) = ["On", "On"] :=
    ⟨_, _, rfl, rfl, rfl, rfl⟩
  -- the light has to go off between the two goals, which the places pass over
  obtain ⟨e, he, hename, hplaces⟩ := Problem.goals_in_order_of_solve hload rfl hsolve 0 d hd
  rw [hgoals] at hplaces
  exact ⟨_, hsolve, e, he, hename.trans hname, hplaces⟩

end TemporalPlanning
