import TemporalPlanning.Proofs.Chronicle.Lookup
import TemporalPlanning.Proofs.Model.Load

/-!
# Well-formed chronicles

In a well-formed chronicle of a model the declared timelines come first, and every further one was
created for a class, with a name of its own. Every token stands exactly once in the sequence of its
timeline, facts before planned tokens, and a planned token has a place for the support of each
condition of its state (`Chronicle.WellFormed`).

A chronicle changes in two ways that matter here. A token *enters* the sequence of its timeline
(`Chronicle.enter`); this keeps it well formed (`Chronicle.WellFormed.enter`). Or something is noted
down, a support, a lock or a seal, that leaves the shape of the chronicle alone
(`Chronicle.Alike`); chronicles of one shape are well formed together
(`Chronicle.WellFormed.of_alike`).
-/

namespace TemporalPlanning

/-! ### Well-formedness -/

/-- A timeline that the search has created for a class of the model. -/
structure Timeline.Created (m : Model) (t : Timeline) : Prop where
  facts_eq : t.facts = 0
  new : m.hasObject t.name = false
  follows : ∃ (className : String) (n : Nat) (d : TimelineDef),
    t.name = s!"{className}_{n}" ∧ t.className = some className ∧
    m.firstTimeline? className = some d ∧ t.states = d.states

/-- A planned token has a place for the support of each condition of its state. -/
def Token.FollowsTemplate (t : Token) (host : Timeline) : Prop :=
  ∃ template, host.template? t.state = some template ∧
    t.supports.length = template.conditions.length

/-- A fact has no supports, and on a timeline with a class it is a declared state. -/
def Token.IsGiven (t : Token) (host : Timeline) : Prop :=
  t.supports = [] ∧ (host.className.isSome → (host.template? t.state).isSome)

/-- A well-formed chronicle of a model with `facts i` facts on the declared timeline `i`. -/
structure Chronicle.WellFormed (m : Model) (facts : Nat → Nat) (c : Chronicle) : Prop where
  declared : ∀ i d, m.timelines[i]? = some d → ∃ t, c.timeline ⟨i⟩ = .ok t ∧ t.name = d.name ∧
    t.className = d.className ∧ t.states = d.states ∧ t.facts = facts i
  created : ∀ id t, c.timeline id = .ok t → m.timelines.length ≤ id.index → t.Created m
  name_inj : ∀ id id' t t', c.timeline id = .ok t → c.timeline id' = .ok t' → t.name = t'.name →
    id = id'
  /-- Every token stands in the sequence of its timeline. -/
  placed : ∀ id t, c.token id = .ok t → ∃ host, c.timeline t.timeline = .ok host ∧
    id ∈ host.sequence
  timepoints : ∀ id t, c.token id = .ok t →
    t.start = ⟨2 * id.index + 1⟩ ∧ t.stop = ⟨2 * id.index + 2⟩
  /-- Every sequence lists tokens of its timeline, each once. -/
  sequence : ∀ id host, c.timeline id = .ok host → host.sequence.Nodup ∧
    ∀ k ∈ host.sequence, ∃ t, c.token k = .ok t ∧ t.timeline = id
  facts_le : ∀ id host, c.timeline id = .ok host → host.facts ≤ host.sequence.length
  /-- The facts come first. -/
  facts_first : ∀ id host j k t, c.timeline id = .ok host → host.sequence[j]? = some k →
    c.token k = .ok t → (j < host.facts ↔ t.origin = .fact)
  fact : ∀ id t host, c.token id = .ok t → c.timeline t.timeline = .ok host → t.origin = .fact →
    t.IsGiven host
  planned : ∀ id t host, c.token id = .ok t → c.timeline t.timeline = .ok host →
    t.origin = .planned → t.FollowsTemplate host
  goals_size : c.goalSupports.size = m.goals.length
  goals : ∀ (g : Nat) (goal : GroundRef) id, m.goals[g]? = some goal →
    c.goalSupports[g]? = some (some id) →
    ∃ t, c.token id = .ok t ∧ t.timeline = ⟨goal.timeline⟩ ∧ t.state = goal.state

namespace Chronicle

variable {m : Model} {facts : Nat → Nat} {c c' : Chronicle}

/-- The declaration that a timeline follows can be found by its name. A declared timeline has the
template that it was declared with; the name of a created one carries the class that it was copied
from. -/
theorem WellFormed.timelineTemplate? (h : c.WellFormed m facts) (hm : m.WellFormed)
    {id : TimelineId} {t : Timeline} (ht : c.timeline id = .ok t) :
    ∃ d, m.timelineTemplate? t.name = some d ∧ d.className = t.className ∧
      d.states = t.states := by
  -- a declared timeline has its declaration, a created one that of the first of its class
  by_cases hlt : id.index < m.timelines.length
  · have hd : m.timelines[id.index]? = some m.timelines[id.index] := List.getElem?_eq_getElem hlt
    obtain ⟨t', ht', hname, hclass, hstates, -⟩ := h.declared _ _ hd
    obtain rfl := timeline_inj ht ht'
    exact ⟨_, by rw [hname, hm.timelineTemplate?_eq hd], hclass.symm, hstates.symm⟩
  · obtain ⟨-, hnew, className, n, d, hname, hclass, hd, hstates⟩ := h.created id t ht (by omega)
    refine ⟨d, ?_, ?_, hstates.symm⟩
    · rw [Model.timelineTemplate?, Model.timelineIndex?_of_not_hasObject hnew, hname,
        Model.classOfName?_created]
      exact hd
    · -- the template was found by its class, so it has the class
      have := List.find?_some hd
      rw [hclass]
      simpa using this

/-- The next token stands nowhere yet. -/
theorem WellFormed.next_notMem (h : c.WellFormed m facts) {id : TimelineId} {host : Timeline}
    (hhost : c.timeline id = .ok host) : (⟨c.tokens.size⟩ : TokenId) ∉ host.sequence := by
  intro hmem
  obtain ⟨u, hu, -⟩ := (h.sequence id host hhost).2 _ hmem
  exact ne_next_of_token hu rfl

/-- The timepoints of the tokens come before those of the next one. -/
theorem WellFormed.timepoints_lt (h : c.WellFormed m facts) {id : TokenId} {t : Token}
    (ht : c.token id = .ok t) :
    t.start.index < 2 * c.tokens.size + 1 ∧ t.stop.index < 2 * c.tokens.size + 1 := by
  have hlt := index_lt_of_token ht
  obtain ⟨hstart, hstop⟩ := h.timepoints id t ht
  rw [hstart, hstop]
  constructor <;> dsimp only <;> omega

/-- No two tokens begin at the same timepoint. -/
theorem WellFormed.eq_of_start_eq (h : c.WellFormed m facts) {id id' : TokenId} {t t' : Token}
    (ht : c.token id = .ok t) (ht' : c.token id' = .ok t') (heq : t.start = t'.start) :
    id = id' := by
  rw [(h.timepoints id t ht).1, (h.timepoints id' t' ht').1] at heq
  have hindex := congrArg Timepoint.index heq
  dsimp only at hindex
  exact congrArg TokenId.mk (by omega)

/-! ### Chronicles of one shape -/

end Chronicle

/-- A token without what is noted down about it. -/
def Token.bare (t : Token) : Token :=
  { t with supports := t.supports.map fun _ => none, locked := false }

/-- A timeline without what is noted down about it. -/
def Timeline.bare (t : Timeline) : Timeline := { t with sealed := false }

namespace Chronicle

/-- Chronicles that differ only in supports, locks, seals and links. -/
structure Alike (c c' : Chronicle) : Prop where
  tokens : ∀ id : Nat, c.tokens[id]?.map Token.bare = c'.tokens[id]?.map Token.bare
  timelines : ∀ id : Nat, c.timelines[id]?.map Timeline.bare = c'.timelines[id]?.map Timeline.bare
  goalSupports : c.goalSupports = c'.goalSupports

variable {m : Model} {facts : Nat → Nat} {c c' c'' : Chronicle}

theorem Alike.refl (c : Chronicle) : c.Alike c := ⟨fun _ => rfl, fun _ => rfl, rfl⟩

/-- To have one shape is symmetric, which is why lemmas are stated in one direction only and used in
both. -/
theorem Alike.symm (h : c.Alike c') : c'.Alike c :=
  ⟨fun i => (h.tokens i).symm, fun i => (h.timelines i).symm, h.goalSupports.symm⟩

theorem Alike.trans (h : c.Alike c') (h' : c'.Alike c'') : c.Alike c'' :=
  ⟨fun i => (h.tokens i).trans (h'.tokens i), fun i => (h.timelines i).trans (h'.timelines i),
    h.goalSupports.trans h'.goalSupports⟩

/-- Tokens of chronicles of one shape have the same place, state, timepoints and number of
supports. -/
theorem Alike.token (h : c.Alike c') {id : TokenId} {t : Token} (ht : c.token id = .ok t) :
    ∃ t', c'.token id = .ok t' ∧ t'.timeline = t.timeline ∧ t'.state = t.state ∧
      t'.start = t.start ∧ t'.stop = t.stop ∧ t'.origin = t.origin ∧
      t'.supports.length = t.supports.length := by
  have hbare := h.tokens id.index
  rw [token_eq_ok.mp ht] at hbare
  obtain ⟨t', ht', heq⟩ := Option.map_eq_some_iff.mp hbare.symm
  have hlength := congrArg (·.supports.length) heq
  simp only [Token.bare, List.length_map] at hlength
  exact ⟨t', token_eq_ok.mpr ht', congrArg (·.timeline) heq, congrArg (·.state) heq,
    congrArg (·.start) heq, congrArg (·.stop) heq, congrArg (·.origin) heq, hlength⟩

/-- Timelines of chronicles of one shape differ only in their seals. This is what the one field left
out of the comparison amounts to. -/
theorem Alike.timeline (h : c.Alike c') {id : TimelineId} {t : Timeline}
    (ht : c.timeline id = .ok t) :
    ∃ t', c'.timeline id = .ok t' ∧ t' = { t with sealed := t'.sealed } := by
  have hbare := h.timelines id.index
  rw [timeline_eq_ok.mp ht] at hbare
  obtain ⟨t', ht', heq⟩ := Option.map_eq_some_iff.mp hbare.symm
  refine ⟨t', timeline_eq_ok.mpr ht', ?_⟩
  -- apart from the seal, the two records agree field by field
  obtain ⟨name, className, states, synthesized, sequence, facts, sealed⟩ := t'
  cases t
  simp only [Timeline.bare, Timeline.mk.injEq] at heq ⊢
  simp [heq]

/-- A handle that leads to a token in one of two chronicles of the same shape does so in the other.
-/
theorem Alike.size_tokens_le (h : c.Alike c') : c.tokens.size ≤ c'.tokens.size := by
  by_contra hlt
  have hlast := h.tokens c'.tokens.size
  rw [Array.getElem?_eq_none le_rfl, Array.getElem?_eq_getElem (by omega)] at hlast
  exact absurd hlast (by simp)

theorem Alike.size_tokens (h : c.Alike c') : c.tokens.size = c'.tokens.size :=
  Nat.le_antisymm h.size_tokens_le h.symm.size_tokens_le

/-- A token on a timeline has its like on the like of the timeline. -/
theorem Alike.hosted (h : c.Alike c') {id : TokenId} {t : Token} {host : Timeline}
    (ht : c.token id = .ok t) (hhost : c.timeline t.timeline = .ok host) :
    ∃ t' host', c'.token id = .ok t' ∧ c'.timeline t'.timeline = .ok host' ∧
      t'.state = t.state ∧ t'.origin = t.origin ∧ t'.supports.length = t.supports.length ∧
      host' = { host with sealed := host'.sealed } := by
  obtain ⟨t', ht', htl, hstate, -, -, horigin, hlength⟩ := h.token ht
  obtain ⟨host', hhost', hbare⟩ := h.timeline hhost
  exact ⟨t', host', ht', by rw [htl]; exact hhost', hstate, horigin, hlength, hbare⟩

section OfAlike

variable (h : c.WellFormed m facts) (halike : c.Alike c')

include h halike

theorem WellFormed.placed_of_alike {id : TokenId} {t' : Token} (ht' : c'.token id = .ok t') :
    ∃ host', c'.timeline t'.timeline = .ok host' ∧ id ∈ host'.sequence := by
  obtain ⟨t, ht, htl, -⟩ := halike.symm.token ht'
  obtain ⟨host, hhost, hmem⟩ := h.placed id t ht
  obtain ⟨host', hhost', hbare⟩ := halike.timeline hhost
  exact ⟨host', by rw [← htl]; exact hhost', by rw [hbare]; exact hmem⟩

/-- Sequences still list tokens of their timelines, each once. The sequence is the same list, and
each of its tokens is still of this timeline. -/
theorem WellFormed.sequence_of_alike {id : TimelineId} {host' : Timeline}
    (hhost' : c'.timeline id = .ok host') : host'.sequence.Nodup ∧
      ∀ k ∈ host'.sequence, ∃ t', c'.token k = .ok t' ∧ t'.timeline = id := by
  obtain ⟨host, hhost, hbare⟩ := halike.symm.timeline hhost'
  obtain ⟨hnodup, hmem⟩ := h.sequence id host hhost
  rw [hbare] at hnodup hmem
  refine ⟨hnodup, fun k hk => ?_⟩
  obtain ⟨t, ht, htl⟩ := hmem k hk
  obtain ⟨t', ht', htl', -⟩ := halike.token ht
  exact ⟨t', ht', htl'.trans htl⟩

/-- The places of the facts are still the first ones: a place and the token in it are the same in
both chronicles. -/
theorem WellFormed.facts_first_of_alike {id : TimelineId} {host' : Timeline} {j : Nat}
    {k : TokenId} {t' : Token} (hhost' : c'.timeline id = .ok host')
    (hj : host'.sequence[j]? = some k) (ht' : c'.token k = .ok t') :
    j < host'.facts ↔ t'.origin = .fact := by
  obtain ⟨host, hhost, hbare⟩ := halike.symm.timeline hhost'
  obtain ⟨t, ht, -, -, -, -, horigin, -⟩ := halike.symm.token ht'
  have hfirst := h.facts_first id host j k t hhost (by rw [hbare]; exact hj) ht
  rwa [hbare, horigin] at hfirst

/-- A fact still has a declared state and no supports. Its state and the number of its slots are
part of the shape. -/
theorem WellFormed.isGiven_of_alike {id : TokenId} {t' : Token} {host' : Timeline}
    (ht' : c'.token id = .ok t') (hhost' : c'.timeline t'.timeline = .ok host')
    (horigin' : t'.origin = .fact) : t'.IsGiven host' := by
  obtain ⟨t, host, ht, hhost, hstate, horigin, hlength, hbare⟩ := halike.symm.hosted ht' hhost'
  obtain ⟨hsupports, hdeclared⟩ := h.fact id t host ht hhost (horigin.trans horigin')
  rw [hbare, hstate] at hdeclared
  refine ⟨?_, hdeclared⟩
  -- supports are compared in number only, which is enough for there being none
  rw [hsupports, List.length_nil] at hlength
  exact List.length_eq_zero_iff.mp hlength.symm

/-- A planned token still has one place for a support for each condition of its template. -/
theorem WellFormed.followsTemplate_of_alike {id : TokenId} {t' : Token} {host' : Timeline}
    (ht' : c'.token id = .ok t') (hhost' : c'.timeline t'.timeline = .ok host')
    (horigin' : t'.origin = .planned) : t'.FollowsTemplate host' := by
  obtain ⟨t, host, ht, hhost, hstate, horigin, hlength, hbare⟩ := halike.symm.hosted ht' hhost'
  obtain ⟨template, htemplate, hcount⟩ := h.planned id t host ht hhost (horigin.trans horigin')
  rw [hbare, hstate] at htemplate
  exact ⟨template, htemplate, hlength.symm.trans hcount⟩

end OfAlike

/-- **Chronicles of one shape are well formed together.** Locks, supports and seals are the only
fields that may differ, and of these well-formedness speaks of none but the number of supports. -/
theorem WellFormed.of_alike (h : c.WellFormed m facts) (halike : c.Alike c') :
    c'.WellFormed m facts where
  declared := by
    intro i d hd
    obtain ⟨t, ht, hdata⟩ := h.declared i d hd
    obtain ⟨t', ht', hbare⟩ := halike.timeline ht
    exact ⟨t', ht', by rw [hbare]; exact hdata⟩
  created := by
    intro id t' ht' hlt
    obtain ⟨t, ht, hbare⟩ := halike.symm.timeline ht'
    obtain ⟨hfacts, hnew, hfollows⟩ := h.created id t ht hlt
    -- the old timeline and the new one differ in nothing that a created timeline is asked for
    rw [hbare] at hfacts hnew hfollows
    exact ⟨hfacts, hnew, hfollows⟩
  name_inj := by
    intro id id' t' u' ht' hu' hname
    obtain ⟨t, ht, htbare⟩ := halike.symm.timeline ht'
    obtain ⟨u, hu, hubare⟩ := halike.symm.timeline hu'
    refine h.name_inj id id' t u ht hu ?_
    rw [htbare, hubare]
    exact hname
  -- what concerns tokens and their places together has lemmas of its own
  placed := fun _ _ => h.placed_of_alike halike
  timepoints := by
    intro id t' ht'
    obtain ⟨t, ht, -, -, hstart, hstop, -⟩ := halike.symm.token ht'
    rw [← hstart, ← hstop]
    exact h.timepoints id t ht
  sequence := fun _ _ => h.sequence_of_alike halike
  facts_le := by
    intro id host' hhost'
    obtain ⟨host, hhost, hbare⟩ := halike.symm.timeline hhost'
    have := h.facts_le id host hhost
    rwa [hbare] at this
  facts_first := fun _ _ _ _ _ => h.facts_first_of_alike halike
  fact := fun _ _ _ => h.isGiven_of_alike halike
  planned := fun _ _ _ => h.followsTemplate_of_alike halike
  goals_size := by
    -- the tokens of goals are the same in both chronicles
    rw [← halike.goalSupports]
    exact h.goals_size
  goals := by
    intro g goal id hgoal hsupport
    rw [← halike.goalSupports] at hsupport
    obtain ⟨t, ht, htl, hstate⟩ := h.goals g goal id hgoal hsupport
    obtain ⟨t', ht', htl', hstate', -⟩ := halike.token ht
    exact ⟨t', ht', htl'.trans htl, hstate'.trans hstate⟩

/-- An update of a token keeps the shape of a chronicle if it touches nothing but supports and
locks. -/
theorem alike_updateToken {id : TokenId} {f : Token → Token}
    (h : ∀ t, c.token id = .ok t → (f t).bare = t.bare) : c.Alike (c.updateToken id f) where
  tokens := by
    intro i
    simp only [updateToken, Array.getElem?_modify]
    split
    · -- of the token that is changed the bare part stays the same
      next hi =>
      subst hi
      cases ht : c.tokens[id.index]? with
      | none => rfl
      | some t => simp only [Option.map_some, h t (token_eq_ok.mpr ht)]
    · rfl
  timelines := fun _ => rfl
  goalSupports := rfl

theorem alike_setLocked (id : TokenId) (locked : Bool) : c.Alike (c.setLocked id locked) :=
  alike_updateToken fun _ _ => rfl

/-- A support keeps the shape, since it is written into a place that is there. -/
theorem alike_setSupport (id : TokenId) (condition : Nat) (support : Option Support) :
    c.Alike (c.setSupport id condition support) := by
  refine alike_updateToken fun t _ => ?_
  simp only [Token.bare, Token.mk.injEq, and_true, true_and]
  rw [List.map_set]
  exact List.ext_getElem (by simp) fun i h₁ h₂ => by simp

/-- The list of links is no part of the shape. -/
theorem alike_addLink (l : CausalLink) : c.Alike (c.addLink l) := ⟨fun _ => rfl, fun _ => rfl, rfl⟩

theorem alike_setSealed (id : TimelineId) (sealed : Bool) : c.Alike (c.setSealed id sealed) where
  tokens := fun _ => rfl
  timelines := by
    intro i
    simp only [setSealed, updateTimeline, Array.getElem?_modify]
    split
    · -- a bare timeline does not tell whether it is sealed
      next hi =>
      subst hi
      cases c.timelines[id.index]? <;> rfl
    · rfl
  goalSupports := rfl

/-! ### Goals and new timelines -/

/-- A goal is served by a token of its timeline and state. The clause on goals is the only one that
looks at what serves them, and it asks for nothing more than this. -/
theorem WellFormed.setGoalSupport (h : c.WellFormed m facts) {g : Nat} {goal : GroundRef}
    {id : TokenId} {t : Token} (hgoal : m.goals[g]? = some goal) (ht : c.token id = .ok t)
    (htl : t.timeline = ⟨goal.timeline⟩) (hstate : t.state = goal.state) :
    (c.setGoalSupport g (some id)).WellFormed m facts := by
  refine ⟨h.declared, h.created, h.name_inj, h.placed, h.timepoints, h.sequence, h.facts_le,
    h.facts_first, h.fact, h.planned, ?_, fun g' goal' id' hgoal' hsupport => ?_⟩
  · rw [Chronicle.setGoalSupport, Array.size_setIfInBounds]
    exact h.goals_size
  · -- only the goal itself has got another token
    by_cases hg : g = g'
    · subst hg
      obtain rfl := Option.some.inj (hgoal.symm.trans hgoal')
      -- there is a place for each goal of the model
      have hlt : g < c.goalSupports.size := by
        rw [h.goals_size]
        exact (List.getElem?_eq_some_iff.mp hgoal).1
      rw [Chronicle.setGoalSupport, Array.getElem?_setIfInBounds_self_of_lt hlt] at hsupport
      obtain rfl := Option.some.inj (Option.some.inj hsupport)
      exact ⟨t, ht, htl, hstate⟩
    · rw [Chronicle.setGoalSupport, Array.getElem?_setIfInBounds_ne hg] at hsupport
      exact h.goals g' goal' id' hgoal' hsupport

/-- The declared timelines are the first ones. -/
theorem WellFormed.length_le (h : c.WellFormed m facts) :
    m.timelines.length ≤ c.timelines.size := by
  by_contra hlt
  have hd : m.timelines[c.timelines.size]? = some m.timelines[c.timelines.size] :=
    List.getElem?_eq_getElem (by omega)
  obtain ⟨t, ht, -⟩ := h.declared _ _ hd
  exact absurd (index_lt_of_timeline ht) (lt_irrefl _)

/-- A timeline is created for a class, with a new name. The declared timelines come first, so that a
created one never stands in a declared place; being empty, it has no tokens whose placing would need
a proof. -/
theorem WellFormed.addTimeline (h : c.WellFormed m facts) {new : Timeline} (hnew : new.Created m)
    (hempty : new.sequence = []) (hname : ∀ id t, c.timeline id = .ok t → t.name ≠ new.name) :
    (c.addTimeline new).WellFormed m facts where
  declared := by
    intro i d hd
    obtain ⟨t, ht, hdata⟩ := h.declared i d hd
    exact ⟨t, timeline_addTimeline.mpr (.inl ht), hdata⟩
  created := by
    intro id t ht hlt
    rcases timeline_addTimeline.mp ht with ht | ⟨-, rfl⟩
    · exact h.created id t ht hlt
    · exact hnew
  name_inj := by
    intro id id' t t' ht ht' heq
    -- the new name is none of the old ones
    rcases timeline_addTimeline.mp ht with ht | ⟨rfl, rfl⟩ <;>
      rcases timeline_addTimeline.mp ht' with ht' | ⟨rfl, rfl⟩
    · exact h.name_inj id id' t t' ht ht' heq
    · exact absurd heq (hname id t ht)
    · exact absurd heq.symm (hname id' t' ht')
    · rfl
  placed := by
    intro id t ht
    obtain ⟨host, hhost, hmem⟩ := h.placed id t ht
    exact ⟨host, timeline_addTimeline.mpr (.inl hhost), hmem⟩
  timepoints := h.timepoints
  sequence := by
    intro id host hhost
    -- the new timeline lists nothing, so that what is said of all its tokens holds
    rcases timeline_addTimeline.mp hhost with hhost | ⟨-, rfl⟩
    · exact h.sequence id host hhost
    · simp [hempty]
  facts_le := by
    intro id host hhost
    rcases timeline_addTimeline.mp hhost with hhost | ⟨-, rfl⟩
    · exact h.facts_le id host hhost
    · rw [hnew.facts_eq]
      exact Nat.zero_le _
  facts_first := by
    intro id host j k t hhost hj ht
    rcases timeline_addTimeline.mp hhost with hhost | ⟨-, rfl⟩
    · exact h.facts_first id host j k t hhost hj ht
    · simp [hempty] at hj
  fact := by
    intro id t host ht hhost
    -- no token is on the new timeline
    obtain ⟨host', hhost', -⟩ := h.placed id t ht
    obtain rfl := timeline_inj hhost (timeline_addTimeline.mpr (.inl hhost'))
    exact h.fact id t _ ht hhost'
  planned := by
    intro id t host ht hhost
    obtain ⟨host', hhost', -⟩ := h.placed id t ht
    obtain rfl := timeline_inj hhost (timeline_addTimeline.mpr (.inl hhost'))
    exact h.planned id t _ ht hhost'
  goals_size := h.goals_size
  goals := h.goals

end Chronicle

/-! ### New tokens -/

/-- A timeline with one more token; a fact counts as one. -/
def Timeline.withToken (h : Timeline) (origin : TokenOrigin) (position : Nat) (id : TokenId) :
    Timeline :=
  { h with
    sequence := h.sequence.insertIdx position id
    facts := match origin with
      | .fact => h.facts + 1
      | .planned => h.facts }

/-- The facts come first with one more token, too: a fact comes last where there is nothing else,
and a planned token stands behind the facts. -/
theorem Timeline.lt_facts_withToken {h : Timeline} {origin : TokenOrigin} {position j : Nat}
    {new id : TokenId} {isFact : Prop} (hposition : position ≤ h.sequence.length)
    (hold : ∀ j, h.sequence[j]? = some id → (j < h.facts ↔ isFact))
    (hnew : id = new → (origin = .fact ↔ isFact))
    (hfact : origin = .fact → position = h.facts ∧ h.facts = h.sequence.length)
    (hplanned : origin = .planned → h.facts ≤ position)
    (hj : (h.withToken origin position new).sequence[j]? = some id) :
    j < (h.withToken origin position new).facts ↔ isFact := by
  simp only [Timeline.withToken, List.getElem?_insertIdx] at hj ⊢
  -- before the place, at it or behind it
  split at hj
  · next hlt =>
    rw [← hold j hj]
    cases origin with
    | fact =>
      have := hfact rfl
      dsimp only
      omega
    -- a planned token leaves the number of facts alone
    | planned => rfl
  · split at hj
    · next hlt heq =>
      rw [if_pos (by omega), Option.some_inj] at hj
      rw [← hnew hj.symm]
      cases origin with
      | fact =>
        have := hfact rfl
        simp only [iff_true]
        omega
      | planned =>
        have := hplanned rfl
        simp only [reduceCtorEq, iff_false]
        omega
    · next hlt hne =>
      -- a fact is put at the end, and then nothing is behind it
      have hin := (List.getElem?_eq_some_iff.mp hj).1
      rw [← hold (j - 1) hj]
      cases origin with
      | fact =>
        have := hfact rfl
        omega
      | planned =>
        have := hplanned rfl
        dsimp only
        omega

namespace Chronicle

/-- A new token enters the sequence of its timeline at a place. -/
def enter (c : Chronicle) (t : Token) (position : Nat) : Chronicle :=
  (c.addToken t).updateTimeline t.timeline fun h => h.withToken t.origin position ⟨c.tokens.size⟩

variable {m : Model} {facts : Nat → Nat} {c : Chronicle} {t : Token} {host : Timeline}
  {position : Nat}

/-- To add a planned token and then insert it is to enter it. -/
theorem insertToken_addToken (horigin : t.origin = .planned) :
    (c.addToken t).insertToken t.timeline position ⟨c.tokens.size⟩ = c.enter t position := by
  simp only [insertToken, enter, Timeline.withToken, horigin]

/-- To add a fact and then append it is to enter it at the end. -/
theorem appendFact_addToken (horigin : t.origin = .fact)
    (hhost : c.timeline t.timeline = .ok host) :
    (c.addToken t).appendFact t.timeline ⟨c.tokens.size⟩ = c.enter t host.sequence.length := by
  rw [timeline_eq_ok] at hhost
  simp only [appendFact, enter, updateTimeline, Timeline.withToken, horigin, Chronicle.mk.injEq,
    and_true]
  refine Array.ext_getElem? fun i => ?_
  simp only [Array.getElem?_modify]
  split
  · next hi =>
    subst hi
    -- a fact goes behind the whole sequence, which is an insertion at its length
    simp only [addToken, hhost, Option.map_some, List.insertIdx_length_self]
  · rfl

/-- The tokens after one more has entered are the old ones and the new one, under the next free
handle. -/
theorem token_enter {u : Token} {id : TokenId} :
    (c.enter t position).token id = .ok u ↔
      c.token id = .ok u ∨ (id = ⟨c.tokens.size⟩ ∧ t = u) := token_addToken

/-- The next free handle leads to the token that entered. -/
theorem token_enter_self : (c.enter t position).token ⟨c.tokens.size⟩ = .ok t :=
  token_enter.mpr (.inr ⟨rfl, rfl⟩)

/-- The tokens of the sequences are the old ones. -/
theorem WellFormed.token_of_enter (h : c.WellFormed m facts) {id : TimelineId} {g : Timeline}
    (hg : c.timeline id = .ok g) {k : TokenId} (hk : k ∈ g.sequence) {u : Token}
    (hu : (c.enter t position).token k = .ok u) : c.token k = .ok u := by
  obtain ⟨v, hv, -⟩ := (h.sequence id g hg).2 k hk
  rwa [← token_inj (token_enter.mpr (.inl hv)) hu]

/-- The timelines after a token has entered are the old ones, of which one has a longer sequence. -/
theorem timeline_enter {u : Timeline} {id : TimelineId} :
    (c.enter t position).timeline id = .ok u ↔ ∃ h, c.timeline id = .ok h ∧
      (if id = t.timeline then h.withToken t.origin position ⟨c.tokens.size⟩ else h) = u :=
  timeline_updateTimeline (c := c.addToken t)

/-- The timeline of a new token, with it. -/
theorem timeline_enter_self (hhost : c.timeline t.timeline = .ok host) :
    (c.enter t position).timeline t.timeline =
      .ok (host.withToken t.origin position ⟨c.tokens.size⟩) :=
  timeline_enter.mpr ⟨host, hhost, if_pos rfl⟩

/-- A timeline is that of the new token, with it, or an old one. Proofs about a token that enters
split here, and in the second case nothing has changed. -/
theorem timeline_enter_cases (hhost : c.timeline t.timeline = .ok host) {id : TimelineId}
    {u : Timeline} (hu : (c.enter t position).timeline id = .ok u) :
    id = t.timeline ∧ u = host.withToken t.origin position ⟨c.tokens.size⟩ ∨
      id ≠ t.timeline ∧ c.timeline id = .ok u := by
  obtain ⟨g, hg, rfl⟩ := timeline_enter.mp hu
  by_cases hid : id = t.timeline
  · subst hid
    obtain rfl := timeline_inj hhost hg
    exact .inl ⟨rfl, if_pos rfl⟩
  · exact .inr ⟨hid, by rwa [if_neg hid]⟩

/-- A timeline keeps its name and its seal when a token enters, and all else unless the token is its
own. -/
theorem exists_timeline_of_enter (hhost : c.timeline t.timeline = .ok host) {id : TimelineId}
    {u : Timeline} (hu : (c.enter t position).timeline id = .ok u) :
    ∃ g, c.timeline id = .ok g ∧ u.name = g.name ∧ u.sealed = g.sealed ∧
      (u = g ∨ id = t.timeline ∧ g = host ∧
        u = host.withToken t.origin position ⟨c.tokens.size⟩) := by
  rcases timeline_enter_cases hhost hu with ⟨rfl, rfl⟩ | ⟨-, hold⟩
  · exact ⟨host, hhost, rfl, rfl, .inr ⟨rfl, rfl, rfl⟩⟩
  · exact ⟨u, hold, rfl, rfl, .inl rfl⟩

/-- A token of the new chronicle, with its timeline: an old one, whose timeline has its class and
states from before, or the new one. -/
theorem hosted_enter_cases (hhost : c.timeline t.timeline = .ok host) {id : TokenId} {u : Token}
    {g : Timeline} (hu : (c.enter t position).token id = .ok u)
    (hg : (c.enter t position).timeline u.timeline = .ok g) :
    (∃ g', c.token id = .ok u ∧ c.timeline u.timeline = .ok g' ∧ g.className = g'.className ∧
      g.states = g'.states) ∨
      t = u ∧ g = host.withToken t.origin position ⟨c.tokens.size⟩ := by
  rcases token_enter.mp hu with hold | ⟨-, rfl⟩
  · rcases timeline_enter_cases hhost hg with ⟨htl, rfl⟩ | ⟨-, hg⟩
    · exact .inl ⟨host, hold, by rw [htl]; exact hhost, rfl, rfl⟩
    · exact .inl ⟨g, hold, hg, rfl, rfl⟩
  · exact .inr ⟨rfl, timeline_inj hg (timeline_enter_self hhost)⟩

/-! ### The clauses of well-formedness with a new token

The token enters the sequence of its timeline, and all others stay in theirs. So most clauses come
from those of the chronicle before by a look at the one timeline that has changed. -/

section Enter

variable (h : c.WellFormed m facts) (hhost : c.timeline t.timeline = .ok host)

include h hhost

/-- The declared timelines are still there; that of a new fact has one fact more. -/
theorem WellFormed.declared_enter {i : Nat} {d : TimelineDef} (hd : m.timelines[i]? = some d) :
    ∃ u, (c.enter t position).timeline ⟨i⟩ = .ok u ∧ u.name = d.name ∧
      u.className = d.className ∧ u.states = d.states ∧
      u.facts = if t.origin = .fact ∧ i = t.timeline.index then facts i + 1 else facts i := by
  obtain ⟨u, hu, hname, hclass, hstates, hfacts⟩ := h.declared i d hd
  by_cases hi : (⟨i⟩ : TimelineId) = t.timeline
  · have hindex : i = t.timeline.index := congrArg TimelineId.index hi
    obtain rfl := timeline_inj hhost (hi ▸ hu)
    refine ⟨host.withToken t.origin position ⟨c.tokens.size⟩, ?_, hname, hclass, hstates, ?_⟩
    · rw [hi]
      exact timeline_enter_self hhost
    -- only a fact raises the count
    cases horigin : t.origin <;> simp [Timeline.withToken, hindex ▸ hfacts, hindex]
  · refine ⟨u, timeline_enter.mpr ⟨u, hu, if_neg hi⟩, hname, hclass, hstates, ?_⟩
    rw [if_neg fun hboth => hi (by rw [hboth.2]), hfacts]

/-- Every token stands in the sequence of its timeline, the new one as well. An insertion keeps
every member of the sequence, whatever the position. -/
theorem WellFormed.placed_enter (hposition : position ≤ host.sequence.length) {id : TokenId}
    {u : Token} (hu : (c.enter t position).token id = .ok u) :
    ∃ g, (c.enter t position).timeline u.timeline = .ok g ∧ id ∈ g.sequence := by
  rcases token_enter.mp hu with hold | ⟨rfl, rfl⟩
  · obtain ⟨g, hg, hmem⟩ := h.placed id u hold
    by_cases htl : u.timeline = t.timeline
    · obtain rfl := timeline_inj hhost (htl ▸ hg)
      refine ⟨_, by rw [htl]; exact timeline_enter_self hhost, ?_⟩
      -- an insertion loses none of the tokens that were there
      exact (List.mem_insertIdx hposition).mpr (.inr hmem)
    · exact ⟨g, timeline_enter.mpr ⟨g, hg, if_neg htl⟩, hmem⟩
  · exact ⟨_, timeline_enter_self hhost, (List.mem_insertIdx hposition).mpr (.inl rfl)⟩

/-- Every sequence still lists tokens of its timeline, each once: the new token has a handle that no
sequence has listed before. -/
theorem WellFormed.sequence_enter (hposition : position ≤ host.sequence.length) {id : TimelineId}
    {u : Timeline} (hu : (c.enter t position).timeline id = .ok u) : u.sequence.Nodup ∧
      ∀ k ∈ u.sequence, ∃ v, (c.enter t position).token k = .ok v ∧ v.timeline = id := by
  have hold : ∀ g, c.timeline id = .ok g → ∀ k ∈ g.sequence,
      ∃ v, (c.enter t position).token k = .ok v ∧ v.timeline = id := by
    intro g hg k hk
    obtain ⟨v, hv, htl⟩ := (h.sequence id g hg).2 k hk
    exact ⟨v, token_enter.mpr (.inl hv), htl⟩
  rcases timeline_enter_cases hhost hu with ⟨rfl, rfl⟩ | ⟨-, hu⟩
  · -- up to the order the new sequence is the old one with the new token in front
    refine ⟨(List.perm_insertIdx _ _ hposition).nodup_iff.mpr (List.nodup_cons.mpr
      ⟨h.next_notMem hhost, (h.sequence _ host hhost).1⟩), fun k hk => ?_⟩
    rcases (List.mem_insertIdx hposition).mp hk with rfl | hk
    · exact ⟨t, token_enter_self, rfl⟩
    · exact hold host hhost k hk
  · -- on the other timelines nothing has changed
    exact ⟨(h.sequence id u hu).1, hold u hu⟩

/-- The facts still come first. A fact enters behind the facts where there is nothing else, a
planned token anywhere behind them. -/
theorem WellFormed.facts_first_enter (hposition : position ≤ host.sequence.length)
    (hfact : t.origin = .fact → position = host.facts ∧ host.facts = host.sequence.length)
    (hplanned : t.origin = .planned → host.facts ≤ position) {id : TimelineId} {u : Timeline}
    {j : Nat} {k : TokenId} {v : Token} (hu : (c.enter t position).timeline id = .ok u)
    (hj : u.sequence[j]? = some k) (hv : (c.enter t position).token k = .ok v) :
    j < u.facts ↔ v.origin = .fact := by
  have hold : ∀ g, c.timeline id = .ok g → ∀ j, g.sequence[j]? = some k →
      (j < g.facts ↔ v.origin = .fact) := fun g hg j hj =>
    h.facts_first id g j k v hg hj (h.token_of_enter hg (List.mem_of_getElem? hj) hv)
  rcases timeline_enter_cases hhost hu with ⟨rfl, rfl⟩ | ⟨-, hu⟩
  · refine Timeline.lt_facts_withToken hposition (hold host hhost) (fun hk => ?_) hfact hplanned hj
    rw [token_inj (token_enter.mpr (.inr ⟨hk, rfl⟩)) hv]
  · exact hold u hu j hj

end Enter

/-- A token of its timeline enters a well-formed chronicle: a fact behind the facts when there is
nothing else, a planned token anywhere behind the facts. -/
theorem WellFormed.enter (h : c.WellFormed m facts) (hhost : c.timeline t.timeline = .ok host)
    (hposition : position ≤ host.sequence.length)
    (htime : t.start = ⟨2 * c.tokens.size + 1⟩ ∧ t.stop = ⟨2 * c.tokens.size + 2⟩)
    (hfact : t.origin = .fact →
      position = host.facts ∧ host.facts = host.sequence.length ∧ t.IsGiven host)
    (hplanned : t.origin = .planned → host.facts ≤ position ∧ t.FollowsTemplate host)
    (hdeclared : t.origin = .fact → t.timeline.index < m.timelines.length) :
    (c.enter t position).WellFormed m fun i =>
      if t.origin = .fact ∧ i = t.timeline.index then facts i + 1 else facts i where
  declared := fun _ _ => h.declared_enter hhost
  created := by
    intro id u hu hlt
    -- the entered timeline, or one that is as it was
    rcases timeline_enter_cases hhost hu with ⟨rfl, rfl⟩ | ⟨-, hu⟩
    · obtain ⟨hzero, hnew, hfollows⟩ := h.created _ host hhost hlt
      -- facts are not added to created timelines
      cases horigin : t.origin with
      | fact => exact absurd (hdeclared horigin) (by omega)
      | planned => exact ⟨hzero, hnew, hfollows⟩
    · exact h.created id u hu hlt
  name_inj := by
    intro id id' u u' hu hu' hname
    obtain ⟨v, hv, rfl⟩ := timeline_enter.mp hu
    obtain ⟨v', hv', rfl⟩ := timeline_enter.mp hu'
    refine h.name_inj id id' v v' hv hv' ?_
    simpa only [apply_ite Timeline.name, Timeline.withToken, ite_self] using hname
  placed := fun _ _ => h.placed_enter hhost hposition
  timepoints := by
    intro id u hu
    -- an old token keeps its timepoints, and the new one has the next two
    rcases token_enter.mp hu with hold | ⟨rfl, rfl⟩
    · exact h.timepoints id u hold
    · exact htime
  sequence := fun _ _ => h.sequence_enter hhost hposition
  facts_le := by
    intro id u hu
    rcases timeline_enter_cases hhost hu with ⟨rfl, rfl⟩ | ⟨-, hu⟩
    · have hle := h.facts_le _ host hhost
      simp only [Timeline.withToken, List.length_insertIdx_of_le_length hposition]
      split <;> omega
    · exact h.facts_le id u hu
  facts_first := fun _ _ _ _ _ => h.facts_first_enter hhost hposition
    (fun ho => ⟨(hfact ho).1, (hfact ho).2.1⟩) fun ho => (hplanned ho).1
  fact := by
    intro id u g hu hg horigin
    rcases hosted_enter_cases hhost hu hg with ⟨g', hold, hg', hclass, hstates⟩ | ⟨rfl, rfl⟩
    · obtain ⟨hsupports, hdeclared⟩ := h.fact id u g' hold hg' horigin
      refine ⟨hsupports, ?_⟩
      rw [Timeline.template?, hclass, hstates]
      exact hdeclared
    · exact (hfact horigin).2.2
  planned := by
    intro id u g hu hg horigin
    rcases hosted_enter_cases hhost hu hg with ⟨g', hold, hg', -, hstates⟩ | ⟨rfl, rfl⟩
    · obtain ⟨template, htemplate, hlength⟩ := h.planned id u g' hold hg' horigin
      refine ⟨template, ?_, hlength⟩
      rw [Timeline.template?, hstates]
      exact htemplate
    · exact (hplanned horigin).2
  goals_size := h.goals_size
  goals := by
    intro g goal id hgoal hsupport
    obtain ⟨u, hu, hdata⟩ := h.goals g goal id hgoal hsupport
    exact ⟨u, token_enter.mpr (.inl hu), hdata⟩

end Chronicle

end TemporalPlanning
