import Mathlib.Data.List.InsertIdx
import TemporalPlanning.Proofs.Chronicle.Placement

/-!
# How a chronicle unfolds

What the search adds to a chronicle leaves the tokens that are there in order: a timeline gets
further tokens before, between and behind them, but none behind the last one once it is sealed
(`Chronicle.Unfolds`). So whatever is said in terms of the order of tokens stays true, whatever
comes later.

Which token serves which goal, and which timelines are sealed, are matters of the decisions on goals
alone. All other changes spare them (`Chronicle.SparesGoals`).
-/

namespace TemporalPlanning

/-- The second timeline has the tokens of the first one, in the same order; if the first one is
sealed, so is the second one, and its last token is the same. -/
structure Timeline.Unfolds (h h' : Timeline) : Prop where
  synthesized : h'.synthesized = h.synthesized
  sequence : h.sequence.Sublist h'.sequence
  tail : h.sealed → h'.sealed ∧ h'.tail? = h.tail?

theorem Timeline.Unfolds.refl (h : Timeline) : h.Unfolds h :=
  ⟨rfl, .refl _, fun hsealed => ⟨hsealed, rfl⟩⟩

/-- What unfolds in two steps unfolds: a sealed timeline is sealed in between, and so its last token
is the same all along. -/
theorem Timeline.Unfolds.trans {h h' h'' : Timeline} (h₁ : h.Unfolds h') (h₂ : h'.Unfolds h'') :
    h.Unfolds h'' where
  synthesized := h₂.synthesized.trans h₁.synthesized
  sequence := h₁.sequence.trans h₂.sequence
  tail := by
    intro hsealed
    obtain ⟨hsealed', htail'⟩ := h₁.tail hsealed
    obtain ⟨hsealed'', htail''⟩ := h₂.tail hsealed'
    exact ⟨hsealed'', htail''.trans htail'⟩

namespace Chronicle

/-- The timelines of the first chronicle unfold into timelines of the second one, and all further
ones were created by the search. -/
structure Unfolds (c c' : Chronicle) : Prop where
  timeline : ∀ id host, c.timeline id = .ok host →
    ∃ host', c'.timeline id = .ok host' ∧ host.Unfolds host'
  created : ∀ id host', c'.timeline id = .ok host' →
    (∃ host, c.timeline id = .ok host) ∨ host'.synthesized

/-- The goals are served as before, and no timeline was sealed. -/
structure SparesGoals (c c' : Chronicle) : Prop where
  goalSupports : c'.goalSupports = c.goalSupports
  unsealed : ∀ id host', c'.timeline id = .ok host' → host'.sealed →
    ∃ host, c.timeline id = .ok host ∧ host.sealed

variable {c c' c'' : Chronicle} {t : Token} {host : Timeline} {position : Nat}

/-! ### Unfolding -/

theorem Unfolds.refl (c : Chronicle) : c.Unfolds c :=
  ⟨fun _ host hhost => ⟨host, hhost, .refl host⟩, fun _ host hhost => .inl ⟨host, hhost⟩⟩

theorem Unfolds.trans (h : c.Unfolds c') (h' : c'.Unfolds c'') : c.Unfolds c'' where
  timeline := by
    intro id host hhost
    obtain ⟨host', hhost', hunfolds⟩ := h.timeline id host hhost
    obtain ⟨host'', hhost'', hunfolds'⟩ := h'.timeline id host' hhost'
    exact ⟨host'', hhost'', hunfolds.trans hunfolds'⟩
  created := by
    intro id host'' hhost''
    rcases h'.created id host'' hhost'' with ⟨host', hhost'⟩ | hnew
    · rcases h.created id host' hhost' with hold | hnew
      · exact .inl hold
      · -- a timeline that came up on the first half is still synthesized at the end
        obtain ⟨_, hhost, hunfolds⟩ := h'.timeline id host' hhost'
        obtain rfl := timeline_inj hhost'' hhost
        exact .inr (hunfolds.synthesized.trans hnew)
    · exact .inr hnew

/-- The end of a sealed timeline lasts. -/
theorem Unfolds.sealed (h : c.Unfolds c') {id : TimelineId} (hhost : c.timeline id = .ok host)
    (hsealed : host.sealed) :
    ∃ host', c'.timeline id = .ok host' ∧ host'.sealed ∧ host'.tail? = host.tail? := by
  obtain ⟨host', hhost', hunfold⟩ := h.timeline id host hhost
  exact ⟨host', hhost', hunfold.tail hsealed⟩

/-- Changes of the tokens alone do not matter. -/
theorem unfolds_of_timelines_eq (h : c'.timelines = c.timelines) : c.Unfolds c' := by
  have heq : c'.timeline = c.timeline := by
    funext id
    rw [timeline, timeline, h]
  refine ⟨fun id host hhost => ⟨host, by rw [heq]; exact hhost, .refl host⟩,
    fun id host' hhost' => .inl ⟨host', by rw [← heq]; exact hhost'⟩⟩

/-- A link is written into tokens and into the list of links, not into timelines. -/
theorem timelines_linkTo {consumer supplier : TokenId} {i : Nat} {relation : Relation} :
    (c.linkTo consumer i supplier relation).timelines = c.timelines := by
  cases relation <;> rfl

/-- One more element before the last one. -/
theorem getLast?_insertIdx {α : Type} {l : List α} {a : α} (h : position < l.length) :
    (l.insertIdx position a).getLast? = l.getLast? := by
  rw [List.getLast?_eq_getElem?, List.getLast?_eq_getElem?, List.length_insertIdx_of_le_length h.le,
    List.getElem?_insertIdx, if_neg (by omega), if_neg (by omega), Nat.add_sub_cancel]

/-- A planned token enters where the timeline takes it. A sealed timeline takes nothing at its end,
and so the last token of a sealed sequence is never covered. -/
theorem unfolds_enter (hhost : c.timeline t.timeline = .ok host) (htakes : c.Takes host position) :
    c.Unfolds (c.enter t position) where
  timeline := by
    intro id g hg
    -- only the timeline that is entered has a new sequence
    by_cases hid : id = t.timeline
    · subst hid
      obtain rfl := timeline_inj hhost hg
      refine ⟨_, timeline_enter_self hhost, rfl, List.sublist_insertIdx _ _ _, fun hsealed => ?_⟩
      -- what comes in is not the last one
      have hne : position ≠ host.sequence.length := by
        intro heq
        rw [htakes.unsealed heq] at hsealed
        exact Bool.false_ne_true hsealed
      exact ⟨hsealed, getLast?_insertIdx (lt_of_le_of_ne htakes.le_length hne)⟩
    · exact ⟨g, timeline_enter.mpr ⟨g, hg, if_neg hid⟩, .refl g⟩
  created := by
    intro id g hg
    obtain ⟨g₀, hg₀, -⟩ := timeline_enter.mp hg
    exact .inl ⟨g₀, hg₀⟩

/-- To seal a timeline lets it unfold, since its tokens stay where they are. From then on nothing
may come behind the last of them, which is a restriction and no change. -/
theorem unfolds_setSealed (id : TimelineId) : c.Unfolds (c.setSealed id true) where
  timeline := by
    intro id' g hg
    refine ⟨_, timeline_updateTimeline.mpr ⟨g, hg, rfl⟩, ?_⟩
    split
    · -- the sequence of the timeline is untouched
      exact ⟨rfl, .refl _, fun _ => ⟨rfl, rfl⟩⟩
    · exact .refl g
  created := by
    intro id' g hg
    obtain ⟨g₀, hg₀, -⟩ := timeline_updateTimeline.mp hg
    exact .inl ⟨g₀, hg₀⟩

/-- A new timeline has to be a synthesized one; the old ones stay as they are. -/
theorem unfolds_addTimeline {new : Timeline} (hnew : new.synthesized) :
    c.Unfolds (c.addTimeline new) where
  timeline := fun id g hg => ⟨g, timeline_addTimeline.mpr (.inl hg), .refl g⟩
  created := by
    intro id g hg
    rcases timeline_addTimeline.mp hg with hg | ⟨-, rfl⟩
    · exact .inl ⟨g, hg⟩
    · exact .inr hnew

/-! ### Sparing the goals -/

theorem SparesGoals.refl (c : Chronicle) : c.SparesGoals c :=
  ⟨rfl, fun _ host hhost hsealed => ⟨host, hhost, hsealed⟩⟩

/-- What spares the goals in two steps spares them. -/
theorem SparesGoals.trans (h : c.SparesGoals c') (h' : c'.SparesGoals c'') : c.SparesGoals c'' where
  goalSupports := h'.goalSupports.trans h.goalSupports
  unsealed := by
    intro id host'' hhost'' hsealed
    obtain ⟨host', hhost', hsealed'⟩ := h'.unsealed id host'' hhost'' hsealed
    exact h.unsealed id host' hhost' hsealed'

/-- An edit that leaves timelines and the tokens of goals alone spares the goals. -/
theorem sparesGoals_of_eq (hgoals : c'.goalSupports = c.goalSupports)
    (htimelines : c'.timelines = c.timelines) : c.SparesGoals c' := by
  refine ⟨hgoals, fun id host' hhost' hsealed => ⟨host', ?_, hsealed⟩⟩
  rwa [timeline, ← htimelines]

/-- A token that enters serves no goal yet, and no timeline is sealed by it. -/
theorem sparesGoals_enter : c.SparesGoals (c.enter t position) where
  goalSupports := rfl
  unsealed := by
    intro id g hg hsealed
    obtain ⟨g₀, hg₀, rfl⟩ := timeline_enter.mp hg
    refine ⟨g₀, hg₀, ?_⟩
    split at hsealed <;> exact hsealed

/-- A new timeline that is not sealed serves no goal. -/
theorem sparesGoals_addTimeline {new : Timeline} (hnew : new.sealed = false) :
    c.SparesGoals (c.addTimeline new) where
  goalSupports := rfl
  unsealed := by
    intro id g hg hsealed
    rcases timeline_addTimeline.mp hg with hg | ⟨-, rfl⟩
    · exact ⟨g, hg, hsealed⟩
    · exact absurd (hnew.symm.trans hsealed) Bool.false_ne_true

end Chronicle

end TemporalPlanning
