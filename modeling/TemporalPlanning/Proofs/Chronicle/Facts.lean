import Mathlib.Data.List.InsertIdx
import TemporalPlanning.Proofs.Chronicle.Placement

/-!
# The facts of a chronicle

The facts stand in front of their timelines, and there they stay as they are: what the search enters
comes behind them, and what it notes down concerns planned tokens only (`Chronicle.KeepsFacts`).
So what the dates of the facts are bound to in the beginning they are bound to for good: the first
fact of a timeline begins at the origin, and each other one when the one before it ends
(`Chronicle.FactsChained`).
-/

namespace TemporalPlanning

namespace Chronicle

/-- The facts of the second chronicle are facts of the first one, in front of the same timelines. -/
structure KeepsFacts (c c' : Chronicle) : Prop where
  token : ∀ id t, c'.token id = .ok t → t.origin = .fact → c.token id = .ok t
  timeline : ∀ id host', c'.timeline id = .ok host' → host'.facts = 0 ∨
    ∃ host, c.timeline id = .ok host ∧ host'.facts = host.facts ∧
      host'.sequence.take host.facts = host.sequence.take host.facts

/-- Dates that chain the facts of each timeline, from the origin on and without gap. -/
structure FactsChained (c : Chronicle) (date : Timepoint → Int) : Prop where
  /-- Nothing comes before the first fact, so that it is not locked either. -/
  first : ∀ id host p t, c.timeline id = .ok host → 0 < host.facts →
    host.sequence[0]? = some p → c.token p = .ok t → t.locked = false ∧ date t.start = date .origin
  next : ∀ id host (j : Nat) p q t u, c.timeline id = .ok host → j + 1 < host.facts →
    host.sequence[j]? = some p → host.sequence[j + 1]? = some q → c.token p = .ok t →
      c.token q = .ok u → date t.stop = date u.start

variable {m : Model} {facts : Nat → Nat} {c c' c'' : Chronicle} {date : Timepoint → Int}

/-! ### Keeping the facts -/

theorem KeepsFacts.refl (c : Chronicle) : c.KeepsFacts c :=
  ⟨fun _ _ ht _ => ht, fun _ host hhost => .inr ⟨host, hhost, rfl, rfl⟩⟩

/-- Facts that are kept in two steps are kept. Neither half may turn a planned token into a fact,
which is why a timeline that is new in the middle has none at the end either. -/
theorem KeepsFacts.trans (h : c.KeepsFacts c') (h' : c'.KeepsFacts c'') : c.KeepsFacts c'' where
  token := fun id t ht horigin => h.token id t (h'.token id t ht horigin) horigin
  timeline := by
    intro id host'' hhost''
    rcases h'.timeline id host'' hhost'' with hnone | ⟨host', hhost', hfacts', htake'⟩
    · exact .inl hnone
    rcases h.timeline id host' hhost' with hnone | ⟨host, hhost, hfacts, htake⟩
    · exact .inl (hfacts'.trans hnone)
    · -- both keep the same number of facts, so the two prefixes have the same length
      rw [hfacts] at hfacts' htake'
      exact .inr ⟨host, hhost, hfacts', htake'.trans htake⟩

/-- A token with a place for a support is planned. -/
theorem WellFormed.planned_of_support (hwf : c.WellFormed m facts) {id : TokenId} {t : Token}
    (ht : c.token id = .ok t) {i : Nat} {support? : Option Support}
    (hslot : t.supports[i]? = some support?) : t.origin = .planned := by
  obtain ⟨host, hhost, -⟩ := hwf.placed id t ht
  cases horigin : t.origin with
  | planned => rfl
  | fact =>
    rw [(hwf.fact id t host ht hhost horigin).1] at hslot
    simp at hslot

/-- What is noted down about a planned token leaves the facts alone. Facts are told by their origin,
and the token that changes is planned before and after. -/
theorem keepsFacts_updateToken {id : TokenId} {t : Token} {f : Token → Token}
    (ht : c.token id = .ok t) (hplanned : (f t).origin = .planned) :
    c.KeepsFacts (c.updateToken id f) where
  token := by
    intro id' u' hu' horigin
    obtain ⟨u, hu, rfl⟩ := token_updateToken.mp hu'
    split at horigin
    · next hid =>
      subst hid
      -- the token written is planned, so it is none of the facts
      obtain rfl := token_inj ht hu
      exact absurd (hplanned.symm.trans horigin) (by simp)
    · next hid => rwa [if_neg hid]
  timeline := (KeepsFacts.refl c).timeline

/-- A support belongs to a planned token, since facts have no conditions. -/
theorem keepsFacts_setSupport {id : TokenId} {t : Token} (ht : c.token id = .ok t)
    (hplanned : t.origin = .planned) (i : Nat) (support : Option Support) :
    c.KeepsFacts (c.setSupport id i support) :=
  keepsFacts_updateToken ht hplanned

/-- A link locks and supports a planned token, and leaves facts as they are. -/
theorem keepsFacts_linkTo {consumer supplier : TokenId} {t : Token} {relation : Relation}
    (ht : c.token consumer = .ok t) (hplanned : t.origin = .planned) (i : Nat) :
    c.KeepsFacts (c.linkTo consumer i supplier relation) := by
  refine ⟨fun id u' hu' hfact => ?_, fun id host' hhost' => ?_⟩
  · obtain ⟨u, hu, rfl⟩ := token_linkTo.mp hu'
    split at hfact
    · next hid =>
      subst hid
      obtain rfl := token_inj ht hu
      exact absurd (hplanned.symm.trans hfact) (by simp)
    · next hid => rwa [if_neg hid]
  · -- a link leaves every timeline as it is, up to being sealed
    obtain ⟨host, hhost, hbare⟩ := alike_linkTo.symm.timeline hhost'
    refine .inr ⟨host, hhost, ?_, ?_⟩ <;> rw [hbare]

/-- The tokens of goals are noted down beside the facts. -/
theorem keepsFacts_setGoalSupport (g : Nat) (id : Option TokenId) :
    c.KeepsFacts (c.setGoalSupport g id) :=
  ⟨(KeepsFacts.refl c).token, (KeepsFacts.refl c).timeline⟩

theorem keepsFacts_setSealed (id : TimelineId) (sealed : Bool) :
    c.KeepsFacts (c.setSealed id sealed) where
  token := (KeepsFacts.refl c).token
  timeline := by
    intro id' host' hhost'
    obtain ⟨host, hhost, hbare⟩ := (alike_setSealed id sealed).symm.timeline hhost'
    refine .inr ⟨host, hhost, ?_, ?_⟩ <;> rw [hbare]

/-- A new timeline has no facts. -/
theorem keepsFacts_addTimeline {new : Timeline} (hnew : new.facts = 0) :
    c.KeepsFacts (c.addTimeline new) where
  token := (KeepsFacts.refl c).token
  timeline := by
    intro id host' hhost'
    rcases timeline_addTimeline.mp hhost' with hhost | ⟨rfl, rfl⟩
    · exact (KeepsFacts.refl c).timeline id host' hhost
    · exact .inl hnew

/-- A planned token enters behind the facts. The hypothesis on the position is what the search
checks before it inserts a token. -/
theorem keepsFacts_enter {t : Token} {host : Timeline} {position : Nat}
    (hplanned : t.origin = .planned) (hhost : c.timeline t.timeline = .ok host)
    (hle : host.facts ≤ position) : c.KeepsFacts (c.enter t position) where
  token := by
    intro id u hu horigin
    -- a token that was there stays as it was, and the one that enters is planned
    rcases token_enter.mp hu with hold | ⟨rfl, rfl⟩
    · exact hold
    · exact absurd (hplanned.symm.trans horigin) (by simp)
  timeline := by
    intro id host' hhost'
    rcases timeline_enter_cases hhost hhost' with ⟨rfl, rfl⟩ | ⟨-, hold⟩
    · -- what comes in behind the facts leaves as many tokens in front as there are facts
      refine .inr ⟨host, hhost, ?_⟩
      simp only [Timeline.withToken, hplanned, true_and]
      exact List.take_insertIdx_eq_take_of_le _ _ _ _ hle
    · exact .inr ⟨host', hold, rfl, rfl⟩

/-! ### Chaining the facts -/

/-- A place among the facts holds a fact. -/
theorem WellFormed.origin_of_lt_facts (hwf : c.WellFormed m facts) {id : TimelineId}
    {host : Timeline} (hhost : c.timeline id = .ok host) {j : Nat} (hj : j < host.facts)
    {p : TokenId} (hp : host.sequence[j]? = some p) {t : Token} (ht : c.token p = .ok t) :
    t.origin = .fact := (hwf.facts_first id host j p t hhost hp ht).mp hj

/-- Dates that chain the facts go on doing so while the facts are kept. A pair of neighbouring facts
of the later chronicle was a pair of neighbouring facts of the earlier one, on the same timeline and
with the same timepoints. -/
theorem FactsChained.of_keepsFacts (h : c.FactsChained date) (hwf : c'.WellFormed m facts)
    (hkeeps : c.KeepsFacts c') : c'.FactsChained date := by
  -- a place among the facts of `c'` is a place among those of `c`
  have old : ∀ id host', c'.timeline id = .ok host' → 0 < host'.facts →
      ∃ host, c.timeline id = .ok host ∧ host'.facts = host.facts ∧
        ∀ j, j < host.facts → host'.sequence[j]? = host.sequence[j]? := by
    intro id host' hhost' hpos
    rcases hkeeps.timeline id host' hhost' with hnone | ⟨host, hhost, hfacts, htake⟩
    · omega
    refine ⟨host, hhost, hfacts, fun j hj => ?_⟩
    rw [← List.getElem?_take_of_lt hj, htake, List.getElem?_take_of_lt hj]
  -- a token among the facts is a fact, and facts are kept as they are
  have kept : ∀ id host' (j : Nat) p t, c'.timeline id = .ok host' → j < host'.facts →
      host'.sequence[j]? = some p → c'.token p = .ok t → c.token p = .ok t :=
    fun id host' j p t hhost' hj hp ht =>
      hkeeps.token p t ht (hwf.origin_of_lt_facts hhost' hj hp ht)
  refine ⟨fun id host' p t hhost' hpos hp ht => ?_,
    fun id host' j p q t u hhost' hj hp hq ht hu => ?_⟩
  · obtain ⟨host, hhost, hfacts, hsame⟩ := old id host' hhost' hpos
    have hpos' : 0 < host.facts := hfacts ▸ hpos
    exact h.first id host p t hhost hpos' (by rw [← hsame 0 hpos']; exact hp)
      (kept id host' 0 p t hhost' hpos hp ht)
  · obtain ⟨host, hhost, hfacts, hsame⟩ := old id host' hhost' (by omega)
    exact h.next id host j p q t u hhost (by omega) (by rw [← hsame j (by omega)]; exact hp)
      (by rw [← hsame (j + 1) (by omega)]; exact hq)
      (kept id host' j p t hhost' (by omega) hp ht) (kept id host' (j + 1) q u hhost' hj hq hu)

/-- One more fact is chained to the last one, or begins at the origin if it is the first one. -/
theorem FactsChained.enter (h : c.FactsChained date) (hwf : c.WellFormed m facts) {t : Token}
    {host : Timeline} (horigin : t.origin = .fact) (hhost : c.timeline t.timeline = .ok host)
    (hlength : host.facts = host.sequence.length)
    (hfirst : host.tail? = none → t.locked = false ∧ date t.start = date .origin)
    (hnext : ∀ p u, host.tail? = some p → c.token p = .ok u → date u.stop = date t.start) :
    (c.enter t host.sequence.length).FactsChained date := by
  -- the tokens of old sequences are old
  have old : ∀ id g (j : Nat) p u, c.timeline id = .ok g → g.sequence[j]? = some p →
      (c.enter t host.sequence.length).token p = .ok u → c.token p = .ok u :=
    fun id g j p u hg hp hu => hwf.token_of_enter hg (List.mem_of_getElem? hp) hu
  refine ⟨fun id host' p u hhost' hpos hp hu => ?_,
    fun id host' j p q u v hhost' hj hp hq hu hv => ?_⟩
  · rcases timeline_enter_cases hhost hhost' with ⟨rfl, rfl⟩ | ⟨-, hg⟩
    · simp only [Timeline.withToken, List.insertIdx_length_self] at hp
      -- the new token is the first one only on an empty timeline
      rcases Nat.eq_zero_or_pos host.sequence.length with hzero | hpos'
      · rw [List.length_eq_zero_iff.mp hzero] at hp
        obtain rfl := Option.some.inj hp
        obtain rfl := token_inj token_enter_self hu
        exact hfirst (by rw [Timeline.tail?, List.length_eq_zero_iff.mp hzero]; rfl)
      · rw [List.getElem?_append_left hpos'] at hp
        exact h.first _ host p u hhost (by omega) hp (old _ host 0 p u hhost hp hu)
    · exact h.first id host' p u hg hpos hp (old id host' 0 p u hg hp hu)
  · rcases timeline_enter_cases hhost hhost' with ⟨rfl, rfl⟩ | ⟨-, hg⟩
    · simp only [Timeline.withToken, List.insertIdx_length_self, horigin] at hj hp hq
      have hj' : j < host.sequence.length := by omega
      rw [List.getElem?_append_left hj'] at hp
      have hu' := old _ host j p u hhost hp hu
      -- two neighbours are old ones, or the last old one and the new one
      rcases Nat.lt_or_ge (j + 1) host.sequence.length with hlt | hge
      · rw [List.getElem?_append_left hlt] at hq
        exact h.next _ host j p q u v hhost (by omega) hp hq hu'
          (old _ host (j + 1) q v hhost hq hv)
      · have hlast : j + 1 = host.sequence.length := by omega
        rw [hlast, List.getElem?_concat_length] at hq
        obtain rfl := Option.some.inj hq
        obtain rfl := token_inj token_enter_self hv
        refine hnext p u ?_ hu'
        rw [Timeline.tail?, List.getLast?_eq_getElem?, ← hlast]
        exact hp
    · exact h.next id host' j p q u v hg hj hp hq (old id host' j p u hg hp hu)
        (old id host' (j + 1) q v hg hq hv)

end Chronicle

end TemporalPlanning
