import TemporalPlanning.Proofs.Edits

/-!
# Looking things up in a chronicle

What the look-ups of a chronicle find after a change, and what the lists of tokens and timelines
that a search goes through contain.
-/

namespace TemporalPlanning

namespace Chronicle

variable {c : Chronicle}

/-! ### Look-up after a change -/

/-- The look-up of a token succeeds exactly if its handle is one of the chronicle, and is a fault
else. All facts about handles are read off the arrays by this lemma and the next two. -/
theorem token_eq_ok {id : TokenId} {t : Token} :
    c.token id = .ok t ↔ c.tokens[id.index]? = some t := Fault.require_eq_ok

/-- The look-up of a timeline succeeds exactly if its handle is one of the chronicle. -/
theorem timeline_eq_ok {id : TimelineId} {t : Timeline} :
    c.timeline id = .ok t ↔ c.timelines[id.index]? = some t := Fault.require_eq_ok

/-- The look-up of the token of a goal succeeds exactly if the goal is one of the model; whether
there is a token is another question. -/
theorem goalSupport?_eq_ok {goal : Nat} {token? : Option TokenId} :
    c.goalSupport? goal = .ok token? ↔ c.goalSupports[goal]? = some token? := Fault.require_eq_ok

/-- A goal that there is can be asked for its token. -/
theorem exists_goalSupport? {goal : Nat} (hlt : goal < c.goalSupports.size) :
    ∃ token?, c.goalSupport? goal = .ok token? :=
  ⟨_, goalSupport?_eq_ok.mpr (Array.getElem?_eq_getElem hlt)⟩

theorem timeline_eq_ok_iff_toList {id : TimelineId} {t : Timeline} :
    c.timeline id = .ok t ↔ c.timelines.toList[id.index]? = some t := by
  rw [timeline_eq_ok, Array.getElem?_toList]

theorem mem_timelines {t : Timeline} : t ∈ c.timelines.toList ↔ ∃ id, c.timeline id = .ok t := by
  rw [List.mem_iff_getElem?]
  constructor
  · rintro ⟨i, hi⟩
    exact ⟨⟨i⟩, timeline_eq_ok_iff_toList.mpr hi⟩
  · rintro ⟨id, hid⟩
    exact ⟨id.index, timeline_eq_ok_iff_toList.mp hid⟩

/-- After a token was added, the handles are those from before and the next free one. -/
theorem token_addToken {t u : Token} {id : TokenId} :
    (c.addToken t).token id = .ok u ↔
      c.token id = .ok u ∨ (id = ⟨c.tokens.size⟩ ∧ t = u) := by
  obtain ⟨i⟩ := id
  rw [token_eq_ok, token_eq_ok, TokenId.mk.injEq, addToken, Array.getElem?_push]
  by_cases hi : i = c.tokens.size
  · -- the old tokens end just before the new number
    subst hi
    rw [if_pos rfl, Array.getElem?_eq_none le_rfl]
    simp
  · rw [if_neg hi]
    simp [hi]

/-- After a timeline was added, the handles are those from before and the next free one. -/
theorem timeline_addTimeline {t u : Timeline} {id : TimelineId} :
    (c.addTimeline t).timeline id = .ok u ↔
      c.timeline id = .ok u ∨ (id = ⟨c.timelines.size⟩ ∧ t = u) := by
  obtain ⟨i⟩ := id
  rw [timeline_eq_ok, timeline_eq_ok, TimelineId.mk.injEq, addTimeline, Array.getElem?_push]
  by_cases hi : i = c.timelines.size
  · -- the old timelines end just before the new number
    subst hi
    rw [if_pos rfl, Array.getElem?_eq_none le_rfl]
    simp
  · rw [if_neg hi]
    simp [hi]

/-- An update reaches the one token with the handle, and the handles stay the same. -/
theorem token_updateToken {f : Token → Token} {j id : TokenId} {u : Token} :
    (c.updateToken j f).token id = .ok u ↔
      ∃ t, c.token id = .ok t ∧ (if id = j then f t else t) = u := by
  obtain ⟨i⟩ := id
  obtain ⟨j⟩ := j
  simp only [token_eq_ok, updateToken, Array.getElem?_modify, TokenId.mk.injEq, eq_comm (a := j)]
  split <;> simp

/-- An update reaches the one timeline with the handle, and the handles stay the same. -/
theorem timeline_updateTimeline {f : Timeline → Timeline} {j id : TimelineId} {u : Timeline} :
    (c.updateTimeline j f).timeline id = .ok u ↔
      ∃ t, c.timeline id = .ok t ∧ (if id = j then f t else t) = u := by
  obtain ⟨i⟩ := id
  obtain ⟨j⟩ := j
  simp only [timeline_eq_ok, updateTimeline, Array.getElem?_modify, TimelineId.mk.injEq,
    eq_comm (a := j)]
  split <;> simp

/-- A handle of a token is smaller than the number of tokens. -/
theorem index_lt_of_token {id : TokenId} {t : Token} (h : c.token id = .ok t) :
    id.index < c.tokens.size := by
  rw [token_eq_ok] at h
  by_contra hge
  rw [Array.getElem?_eq_none (by omega)] at h
  exact absurd h (by simp)

/-- The handle of the next token is not that of an old one. -/
theorem ne_next_of_token {id : TokenId} {t : Token} (h : c.token id = .ok t) :
    id ≠ ⟨c.tokens.size⟩ := by
  rintro rfl
  exact lt_irrefl _ (index_lt_of_token h)

theorem index_lt_of_timeline {id : TimelineId} {t : Timeline} (h : c.timeline id = .ok t) :
    id.index < c.timelines.size := by
  rw [timeline_eq_ok] at h
  by_contra hge
  rw [Array.getElem?_eq_none (by omega)] at h
  exact absurd h (by simp)

/-- A handle leads to one token. This is how two ways of finding a token are brought together. -/
theorem token_inj {id : TokenId} {t u : Token} (ht : c.token id = .ok t) (hu : c.token id = .ok u) :
    t = u := Except.ok.inj (ht.symm.trans hu)

theorem timeline_inj {id : TimelineId} {t u : Timeline} (ht : c.timeline id = .ok t)
    (hu : c.timeline id = .ok u) : t = u := Except.ok.inj (ht.symm.trans hu)

/-! ### Lists of tokens and timelines -/

/-- The entries of the chronicle are its tokens with their handles. Listing them and looking them up
are two ways to the same array, and proofs about the lists go over to look-ups here. -/
theorem mem_tokenEntries {e : TokenId × Token} : e ∈ c.tokenEntries ↔ c.token e.1 = .ok e.2 := by
  obtain ⟨⟨i⟩, t⟩ := e
  -- the entries are the array, each token with its index
  rw [tokenEntries, List.mem_mapIdx, token_eq_ok]
  simp only [Array.length_toList, Array.getElem_toList, Prod.mk.injEq, TokenId.mk.injEq,
    Array.getElem?_eq_some_iff]
  constructor
  · rintro ⟨_, h, rfl, ht⟩
    exact ⟨h, ht⟩
  · rintro ⟨h, ht⟩
    exact ⟨i, h, rfl, ht⟩

/-- The entries of the chronicle are its timelines with their handles. It is used where the program
filters all timelines, by class or by the state that they may hold. -/
theorem mem_timelineEntries {e : TimelineId × Timeline} :
    e ∈ c.timelineEntries ↔ c.timeline e.1 = .ok e.2 := by
  obtain ⟨⟨i⟩, t⟩ := e
  rw [timelineEntries, List.mem_mapIdx, timeline_eq_ok]
  simp only [Array.length_toList, Array.getElem_toList, Prod.mk.injEq, TimelineId.mk.injEq,
    Array.getElem?_eq_some_iff]
  constructor
  · rintro ⟨_, h, rfl, ht⟩
    exact ⟨h, ht⟩
  · rintro ⟨h, ht⟩
    exact ⟨i, h, rfl, ht⟩

/-- The tokens of a state on a timeline are found by looking at all tokens. -/
theorem mem_tokensWithState {timeline : TimelineId} {state : String} {id : TokenId} :
    id ∈ c.tokensWithState timeline state ↔
      ∃ t, c.token id = .ok t ∧ t.timeline = timeline ∧ t.state = state := by
  simp only [tokensWithState, List.mem_map, List.mem_filter, mem_tokenEntries, Bool.and_eq_true,
    beq_iff_eq]
  constructor
  · rintro ⟨⟨id, t⟩, ⟨ht, htl, hstate⟩, rfl⟩
    exact ⟨t, ht, htl, hstate⟩
  · rintro ⟨t, ht, htl, hstate⟩
    exact ⟨(id, t), ⟨ht, htl, hstate⟩, rfl⟩

/-- The timelines of a class are those that name it; a timeline of facts only names none. -/
theorem mem_ofClass {className : String} {id : TimelineId} :
    id ∈ c.ofClass className ↔ ∃ t, c.timeline id = .ok t ∧ t.className = some className := by
  simp only [ofClass, List.mem_map, List.mem_filter, mem_timelineEntries, beq_iff_eq]
  constructor
  · rintro ⟨⟨id, t⟩, ⟨ht, hclass⟩, rfl⟩
    exact ⟨t, ht, hclass⟩
  · rintro ⟨t, ht, hclass⟩
    exact ⟨(id, t), ⟨ht, hclass⟩, rfl⟩

/-- What is found under a name has that name. -/
theorem timeline_of_find? {name : String} {id : TimelineId} (h : c.find? name = some id) :
    ∃ t, c.timeline id = .ok t ∧ t.name = name := by
  obtain ⟨i, hi, rfl⟩ := Option.map_eq_some_iff.mp h
  obtain ⟨hlt, hname, -⟩ := List.findIdx?_eq_some_iff_getElem.mp hi
  exact ⟨_, timeline_eq_ok_iff_toList.mpr (List.getElem?_eq_getElem hlt), by simpa using hname⟩

/-- A name is found if there is a timeline of that name. -/
theorem find?_isSome {name : String} {id : TimelineId} {t : Timeline} (ht : c.timeline id = .ok t)
    (hname : t.name = name) : ∃ id', c.find? name = some id' := by
  rw [← Option.isSome_iff_exists, find?, Option.isSome_map, List.findIdx?_isSome, List.any_eq_true]
  exact ⟨t, mem_timelines.mpr ⟨id, ht⟩, by simpa using hname⟩

end Chronicle

end TemporalPlanning
