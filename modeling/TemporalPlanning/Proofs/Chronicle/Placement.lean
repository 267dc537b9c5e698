import TemporalPlanning.Proofs.Chronicle.Supports
import Mathlib.Data.List.Nodup

/-!
# Supports and dates when something is created

A token that enters a chronicle without supports leaves all conditions served that were served
before, provided that it does not come before a locked token (`Chronicle.grows_enter`), and dates
that respect the chronicle respect it with the new token if they fit its duration and its
neighbours (`Chronicle.Respects.enter`). A new timeline is empty and disturbs nothing.
-/

namespace TemporalPlanning

/-- A token without supports. -/
def Token.IsBlank (t : Token) : Prop := ∀ (i : Nat) support, t.supports[i]? ≠ some (some support)

namespace Chronicle

variable {c : Chronicle} {b : ReservationBook} {m : Model} {facts : Nat → Nat} {t : Token}
  {host : Timeline} {position : Nat}

/-! ### Where a token stands -/

/-- A token stands at one place. -/
theorem place_unique {l : List TokenId} (hl : l.Nodup) {id : TokenId} {i j : Nat}
    (hi : l[i]? = some id) (hj : l[j]? = some id) : i = j := by
  obtain ⟨hi, heq⟩ := List.getElem?_eq_some_iff.mp hi
  obtain ⟨hj, heq'⟩ := List.getElem?_eq_some_iff.mp hj
  exact (List.Nodup.getElem_inj_iff hl).mp (heq.trans heq'.symm)

/-- In a sequence without repetitions, the first place of a token is its place. The program searches
for a token from the front; with this its place can be given instead of found. -/
theorem findIdx?_eq_some_iff {l : List TokenId} (hl : l.Nodup) {id : TokenId} {j : Nat} :
    l.findIdx? (· == id) = some j ↔ l[j]? = some id := by
  rw [List.findIdx?_eq_some_iff_getElem]
  constructor
  · rintro ⟨hj, heq, -⟩
    rw [List.getElem?_eq_getElem hj, eq_of_beq heq]
  · intro h
    obtain ⟨hj, heq⟩ := List.getElem?_eq_some_iff.mp h
    refine ⟨hj, by simp [heq], fun k hk => ?_⟩
    -- an earlier place of the same token would be a repetition
    have hne : l[k] ≠ id := fun hkid => by
      have := (List.Nodup.getElem_inj_iff hl).mp (hkid.trans heq.symm)
      omega
    simpa using hne

/-- Every token has its place. -/
theorem WellFormed.exists_place (hwf : c.WellFormed m facts) {id : TokenId} {t : Token}
    (ht : c.token id = .ok t) :
    ∃ host, ∃ j : Nat, c.timeline t.timeline = .ok host ∧ host.sequence[j]? = some id := by
  obtain ⟨host, hhost, hmem⟩ := hwf.placed id t ht
  obtain ⟨j, hj, heq⟩ := List.mem_iff_getElem.mp hmem
  exact ⟨host, j, hhost, by rw [List.getElem?_eq_getElem hj, heq]⟩

/-- The position of a token, when it is asked for, is its place on its own timeline. -/
theorem WellFormed.position?_eq_ok (hwf : c.WellFormed m facts) {id : TokenId} {j? : Option Nat}
    (h : c.position? id = .ok j?) : ∃ t host, ∃ j : Nat, c.token id = .ok t ∧
      c.timeline t.timeline = .ok host ∧ host.sequence[j]? = some id ∧ j? = some j := by
  obtain ⟨t, ht, h⟩ := Fault.bind_eq_ok.mp h
  obtain ⟨host, j, hhost, hj⟩ := hwf.exists_place ht
  obtain ⟨host', hhost', h⟩ := Fault.bind_eq_ok.mp h
  obtain rfl := timeline_inj hhost hhost'
  obtain rfl := Except.ok.inj h
  exact ⟨t, host, j, ht, hhost, hj,
    (findIdx?_eq_some_iff (hwf.sequence _ _ hhost).1).mpr hj⟩

/-- The predecessor of a token is what stands in front of its place. The first token of a sequence
has none, and this is what `before?` says of the place 0. -/
theorem WellFormed.predecessor?_eq_ok (hwf : c.WellFormed m facts) {id : TokenId}
    {p? : Option TokenId} (h : c.predecessor? id = .ok p?) :
    ∃ t host, ∃ j : Nat, c.token id = .ok t ∧
      c.timeline t.timeline = .ok host ∧ host.sequence[j]? = some id ∧
      p? = before? host.sequence j := by
  obtain ⟨t, ht, h⟩ := Fault.bind_eq_ok.mp h
  obtain ⟨host, j, hhost, hj⟩ := hwf.exists_place ht
  obtain ⟨host', hhost', h⟩ := Fault.bind_eq_ok.mp h
  obtain rfl := timeline_inj hhost hhost'
  obtain rfl := Except.ok.inj h
  refine ⟨t, host, j, ht, hhost, hj, ?_⟩
  rw [(findIdx?_eq_some_iff (hwf.sequence _ _ hhost).1).mpr hj]
  rfl

/-- The predecessor of a token stands right before it. -/
theorem WellFormed.standsBefore_of_predecessor? (hwf : c.WellFormed m facts) {id p : TokenId}
    (h : c.predecessor? id = .ok (some p)) : c.StandsBefore p id := by
  obtain ⟨t, host, j, ht, hhost, hj, hp⟩ := hwf.predecessor?_eq_ok h
  cases j with
  | zero => exact absurd hp (by simp [before?])
  | succ j => exact ⟨t.timeline, host, j, hhost, hp.symm, hj⟩

/-- Where a token stands right in front of another one, it is the predecessor that is found. -/
theorem WellFormed.predecessor?_of_standsBefore (hwf : c.WellFormed m facts) {id p : TokenId}
    (h : c.StandsBefore p id) : c.predecessor? id = .ok (some p) := by
  obtain ⟨timeline, host, j, hhost, hp, hj⟩ := h
  obtain ⟨hnodup, hmem⟩ := hwf.sequence timeline host hhost
  obtain ⟨t, ht, rfl⟩ := hmem id (List.mem_of_getElem? hj)
  refine Fault.bind_eq_ok.mpr ⟨t, ht, Fault.bind_eq_ok.mpr ⟨host, hhost, ?_⟩⟩
  show Except.ok ((host.sequence.findIdx? (· == id)).bind (before? host.sequence)) = _
  rw [(findIdx?_eq_some_iff hnodup).mpr hj]
  exact congrArg Except.ok hp

/-- What stands right before a token is on the same timeline, one place further in front. -/
theorem WellFormed.place_of_standsBefore (hwf : c.WellFormed m facts) {id p : TokenId} {t : Token}
    {host : Timeline} (ht : c.token id = .ok t) (hhost : c.timeline t.timeline = .ok host) {k : Nat}
    (hk : host.sequence[k]? = some id) (h : c.StandsBefore p id) :
    ∃ j u, k = j + 1 ∧ host.sequence[j]? = some p ∧ c.token p = .ok u ∧
      u.timeline = t.timeline := by
  obtain ⟨timeline, host', j, hhost', hj, hj'⟩ := h
  obtain ⟨hnodup, hmem⟩ := hwf.sequence timeline host' hhost'
  obtain ⟨t', ht', rfl⟩ := hmem id (List.mem_of_getElem? hj')
  obtain rfl := token_inj ht ht'
  obtain rfl := timeline_inj hhost hhost'
  obtain ⟨u, hu, htl⟩ := hmem p (List.mem_of_getElem? hj)
  exact ⟨j, u, place_unique hnodup hk hj', hj, hu, htl⟩

/-- The position of a token can always be asked for. -/
theorem WellFormed.exists_position? (hwf : c.WellFormed m facts) {id : TokenId} {t : Token}
    (ht : c.token id = .ok t) : ∃ j?, c.position? id = .ok j? := by
  obtain ⟨host, -, hhost, -⟩ := hwf.exists_place ht
  exact ⟨_, Fault.bind_eq_ok.mpr ⟨t, ht, Fault.bind_eq_ok.mpr ⟨host, hhost, rfl⟩⟩⟩

/-- The predecessor of a token can always be asked for, also where it has none. -/
theorem WellFormed.exists_predecessor? (hwf : c.WellFormed m facts) {id : TokenId} {t : Token}
    (ht : c.token id = .ok t) : ∃ p?, c.predecessor? id = .ok p? := by
  obtain ⟨host, -, hhost, -⟩ := hwf.exists_place ht
  exact ⟨_, Fault.bind_eq_ok.mpr ⟨t, ht, Fault.bind_eq_ok.mpr ⟨host, hhost, rfl⟩⟩⟩

/-- What stands in front of a position is a token of the sequence. -/
theorem mem_of_before? {l : List TokenId} {k : TokenId} (h : before? l position = some k) :
    k ∈ l := by
  cases position with
  | zero => exact absurd h (by simp [before?])
  | succ j => exact List.mem_of_getElem? h

/-! ### Where a token may enter -/

/-- A timeline takes a token at a place. -/
structure Takes (c : Chronicle) (host : Timeline) (position : Nat) : Prop where
  facts_le : host.facts ≤ position
  le_length : position ≤ host.sequence.length
  unlocked : ∀ k u, host.sequence[position]? = some k → c.token k = .ok u → u.locked = false
  unsealed : position = host.sequence.length → host.sealed = false

/-- The test of a position tells whether the timeline takes a token there: behind the facts, not in
front of a locked token, and at the end only if the timeline is not sealed. -/
theorem isInsertable_eq_ok {id : TimelineId} {insertable : Bool}
    (h : c.isInsertable id position = .ok insertable) :
    ∃ host, c.timeline id = .ok host ∧ (insertable = true ↔ c.Takes host position) := by
  obtain ⟨host, hhost, h⟩ := Fault.bind_eq_ok.mp h
  refine ⟨host, hhost, ?_⟩
  -- a position that is out of range is refused without looking at tokens
  split at h
  · next hout =>
    obtain rfl := Except.ok.inj h
    refine ⟨fun hb => absurd hb (by simp), fun htakes => ?_⟩
    have := htakes.facts_le
    have := htakes.le_length
    omega
  · next hin =>
    -- at the end the seal decides, elsewhere the lock of the next token
    split at h
    · next next hnext =>
      obtain ⟨u, hu, h⟩ := Fault.bind_eq_ok.mp h
      obtain rfl := Except.ok.inj h
      have hlt := (List.getElem?_eq_some_iff.mp hnext).1
      refine ⟨fun hb => ⟨by omega, by omega, fun k v hk hv => ?_, fun hend => by omega⟩,
        fun htakes => by rw [htakes.unlocked next u hnext hu]; rfl⟩
      obtain rfl := Option.some.inj (hnext.symm.trans hk)
      obtain rfl := token_inj hv hu
      simpa using hb
    · next hnone =>
      obtain rfl := Except.ok.inj h
      -- no token follows, so that the position is the end of the sequence
      have hge := List.getElem?_eq_none_iff.mp hnone
      refine ⟨fun hb => ⟨by omega, by omega, fun k v hk _ => ?_, fun _ => by simpa using hb⟩,
        fun htakes => by rw [htakes.unsealed (by omega)]; rfl⟩
      exact absurd (hnone.symm.trans hk) (by simp)

/-- The positions that are listed are those that take a token, whatever their order. The program
asks about every position behind the facts, from the end of the timeline down. -/
theorem insertablePositions_eq_ok {id : TimelineId} {places : List Nat}
    (h : c.insertablePositions id = .ok places) :
    ∃ host, c.timeline id = .ok host ∧ ∀ p, p ∈ places ↔ c.Takes host p := by
  obtain ⟨host, hhost, h⟩ := Fault.bind_eq_ok.mp h
  obtain ⟨hall, hmem⟩ := Fault.mem_filter h
  -- each of the positions that are tried has the answer that the test gives it
  have htakes : ∀ {p b}, c.isInsertable id p = .ok b → (b = true ↔ c.Takes host p) := by
    intro p b hp
    obtain ⟨host', hhost', hb⟩ := isInsertable_eq_ok hp
    obtain rfl := timeline_inj hhost hhost'
    exact hb
  refine ⟨host, hhost, fun p => ?_⟩
  rw [hmem]
  constructor
  · rintro ⟨-, hp⟩
    exact (htakes hp).mp rfl
  · intro hp
    -- a place that takes a token is one of those that are tried
    have hin : p ∈ (List.range (host.sequence.length + 1)).reverse.filter fun p =>
        decide (host.facts ≤ p) := by
      rw [List.mem_filter, List.mem_reverse, List.mem_range]
      exact ⟨by have := hp.le_length; omega, decide_eq_true hp.facts_le⟩
    obtain ⟨b, hb⟩ := hall p hin
    exact ⟨hin, by rw [hb, (htakes hb).mpr hp]⟩

/-- Where a timeline takes a token of a state. Admission is asked in two stages, of which the second
looks at the token in front only if the place is free at all. -/
theorem admitsState_eq_ok {id : TimelineId} {state : String} {position : Nat} {admitted : Bool}
    (h : c.admitsState id state position = .ok admitted) :
    ∃ host, c.timeline id = .ok host ∧ (admitted = true → c.Takes host position) ∧
      (c.Takes host position → ∃ previous, c.stateBefore? host position = .ok previous ∧
        (admitted = true ↔ canFollow host.states state previous)) := by
  obtain ⟨insertable, hinsertable, h⟩ := Fault.bind_eq_ok.mp h
  obtain ⟨host, hhost, htakes⟩ := isInsertable_eq_ok hinsertable
  refine ⟨host, hhost, ?_⟩
  cases insertable with
  -- the place is free, and what is left is whether the state can follow the one in front of it
  | true =>
    obtain ⟨host', hhost', h⟩ := Fault.bind_eq_ok.mp h
    obtain rfl := timeline_inj hhost hhost'
    obtain ⟨previous, hprevious, h⟩ := Fault.bind_eq_ok.mp h
    obtain rfl := Except.ok.inj h
    exact ⟨fun _ => htakes.mp rfl, fun _ => ⟨previous, hprevious, Iff.rfl⟩⟩
  -- a place that is not free is turned down before the state in front of it is looked at
  | false =>
    obtain rfl := Except.ok.inj h
    exact ⟨fun hfalse => absurd hfalse (by simp), fun hp => absurd (htakes.mpr hp) (by simp)⟩

/-- A position at which a state is admitted is one that takes tokens at all. -/
theorem isInsertable_of_admitsState {id : TimelineId} {state : String}
    (h : c.admitsState id state position = .ok true) : c.isInsertable id position = .ok true := by
  obtain ⟨insertable, hinsertable, h⟩ := Fault.bind_eq_ok.mp h
  cases insertable with
  | true => exact hinsertable
  | false => exact absurd (Except.ok.inj h) (by simp)

/-- Whether a sequence takes a token can be told if its tokens are there. The test looks at the
token that would follow, to see whether it is locked to the one before it. -/
theorem exists_isInsertable {id : TimelineId} (hhost : c.timeline id = .ok host)
    (htokens : ∀ k ∈ host.sequence, ∃ u, c.token k = .ok u) (position : Nat) :
    ∃ insertable, c.isInsertable id position = .ok insertable :=
  Fault.exists_bind ⟨host, hhost⟩ fun host' hhost' => by
    obtain rfl := timeline_inj hhost hhost'
    refine Fault.exists_ite (fun _ => ⟨false, rfl⟩) fun _ => ?_
    split
    · next k hk =>
      exact Fault.exists_bind (htokens k (List.mem_of_getElem? hk)) fun _ _ => ⟨_, rfl⟩
    · exact ⟨_, rfl⟩

/-- The positions of a timeline can be listed if its tokens can be looked up. -/
theorem exists_insertablePositions {id : TimelineId} (hhost : c.timeline id = .ok host)
    (htokens : ∀ k ∈ host.sequence, ∃ u, c.token k = .ok u) :
    ∃ places, c.insertablePositions id = .ok places :=
  Fault.exists_bind ⟨host, hhost⟩ fun _ _ =>
    Fault.exists_filter fun p _ => exists_isInsertable hhost htokens p

/-- Whether a state is admitted at a position has an answer if the tokens of the timeline can be
looked up. -/
theorem exists_admitsState {id : TimelineId} (hhost : c.timeline id = .ok host)
    (htokens : ∀ k ∈ host.sequence, ∃ u, c.token k = .ok u) (state : String) (position : Nat) :
    ∃ admitted, c.admitsState id state position = .ok admitted := by
  refine Fault.exists_bind (exists_isInsertable hhost htokens position) fun insertable _ =>
    Fault.exists_ite (fun _ => ?_) fun _ => ⟨false, rfl⟩
  refine Fault.exists_bind ⟨host, hhost⟩ fun host' hhost' => ?_
  obtain rfl := timeline_inj hhost hhost'
  refine Fault.exists_bind ?_ fun _ _ => ⟨_, rfl⟩
  rw [stateBefore?]
  split
  · -- the token before the position is one of the timeline's, so it can be read
    next k hk => exact Fault.exists_bind (htokens k (mem_of_before? hk)) fun _ _ => ⟨_, rfl⟩
  · exact ⟨_, rfl⟩

/-- The tokens of a timeline can be looked up. -/
theorem WellFormed.exists_of_mem (hwf : c.WellFormed m facts) {id : TimelineId}
    (hhost : c.timeline id = .ok host) : ∀ k ∈ host.sequence, ∃ u, c.token k = .ok u :=
  fun k hk => ((hwf.sequence id host hhost).2 k hk).imp fun _ hu => hu.1

/-! ### A token enters -/

/-- Where the tokens of a sequence stand once a new one has entered it. -/
theorem getElem?_insertIdx_of_lt_getElem? {l : List TokenId} {k : TokenId} {j : Nat}
    (position : Nat) (new : TokenId) (h : l[j]? = some k) :
    (l.insertIdx position new)[if j < position then j else j + 1]? = some k := by
  rw [List.getElem?_insertIdx]
  by_cases hj : j < position
  · rw [if_pos hj, if_pos hj]
    exact h
  · rw [if_neg hj, if_neg (by omega), if_neg (by omega)]
    exact h

/-- A token that does not come before a locked one lets the chronicle grow. Tokens keep their
numbers and timelines their order, so that whatever stood directly before a locked token goes on
standing there. -/
theorem grows_enter (hhost : c.timeline t.timeline = .ok host)
    (unlocked : ∀ k u, host.sequence[position]? = some k → c.token k = .ok u → u.locked = false) :
    c.Grows (c.enter t position) where
  token := fun id u hu => ⟨u, token_enter.mpr (.inl hu), rfl, rfl, rfl, rfl, fun h => h⟩
  timeline := by
    -- a timeline keeps its name, class and states
    intro id g hg
    refine ⟨_, timeline_enter.mpr ⟨g, hg, rfl⟩, ?_⟩
    split <;> exact ⟨rfl, rfl, rfl⟩
  standsBefore := by
    rintro p q u hu hlocked ⟨id, g, j, hg, hp, hq⟩
    -- other timelines keep their sequences
    by_cases hid : id = t.timeline
    · subst hid
      obtain rfl := timeline_inj hhost hg
      -- a locked token keeps the one before it, since nothing enters between them
      have hne : position ≠ j + 1 := by
        rintro rfl
        rw [unlocked q u hq hu] at hlocked
        exact absurd hlocked (by simp)
      refine ⟨_, _, if j < position then j else j + 1, timeline_enter_self hhost,
        getElem?_insertIdx_of_lt_getElem? _ _ hp, ?_⟩
      have hq' := getElem?_insertIdx_of_lt_getElem? position ⟨c.tokens.size⟩ hq
      rwa [show (if j + 1 < position then j + 1 else j + 1 + 1) =
        (if j < position then j else j + 1) + 1 by split <;> split <;> omega] at hq'
    · refine ⟨id, g, j, timeline_enter.mpr ⟨g, hg, if_neg hid⟩, hp, hq⟩

/-- A token that enters without supports brings no support. Old tokens keep their slots, and the
slots of the new one are empty. -/
theorem supportedBy_enter (hblank : t.IsBlank) {id : TokenId}
    {i : Nat} {support : Support} :
    (c.enter t position).SupportedBy id i support ↔ c.SupportedBy id i support := by
  constructor
  · rintro ⟨u, hu, hslot⟩
    rcases token_enter.mp hu with hold | ⟨-, rfl⟩
    · exact ⟨u, hold, hslot⟩
    · exact absurd hslot (hblank i support)
  · rintro ⟨u, hu, hslot⟩
    exact ⟨u, token_enter.mpr (.inl hu), hslot⟩

/-- What begins when the token before a place ends, or later, begins so for all tokens before the
place. -/
theorem Respects.stop_le_of_before {date : Timepoint → Int} (h : c.Respects date)
    (hwf : c.WellFormed m facts) (hm : m.WellFormed) {id : TimelineId}
    (hhost : c.timeline id = .ok host) (hposition : position ≤ host.sequence.length) {x : Int}
    (hbefore : ∀ p u, before? host.sequence position = some p → c.token p = .ok u →
      date u.stop ≤ x) {i : Nat} {q : TokenId} {v : Token} (hi : i < position)
    (hq : host.sequence[i]? = some q) (hv : c.token q = .ok v) : date v.stop ≤ x := by
  obtain ⟨l, rfl⟩ := Nat.exists_eq_succ_of_ne_zero (Nat.ne_zero_of_lt hi)
  have hl : host.sequence[l]? = some host.sequence[l] := List.getElem?_eq_getElem (by omega)
  obtain ⟨w, hw, -⟩ := (hwf.sequence _ _ hhost).2 _ (List.getElem_mem (by omega : l < _))
  -- the last token in front of the position is the one that the hypothesis is about
  have hlast : date w.stop ≤ x := hbefore _ w hl hw
  -- the others end before the last one begins
  by_cases hil : i = l
  · subst hil
    obtain rfl := Option.some.inj (hq.symm.trans hl)
    obtain rfl := token_inj hw hv
    exact hlast
  · have := h.ordered _ _ i l q _ _ w hhost (by omega) hq hl hv hw
    have := h.start_le_stop hwf hm hw
    omega

/-- What ends when the token at a place begins, or earlier, ends so for all tokens behind it. -/
theorem Respects.le_start_of_after {date : Timepoint → Int} (h : c.Respects date)
    (hwf : c.WellFormed m facts) (hm : m.WellFormed) {id : TimelineId}
    (hhost : c.timeline id = .ok host) {x : Int}
    (hafter : ∀ n u, host.sequence[position]? = some n → c.token n = .ok u → x ≤ date u.start)
    {i : Nat} {q : TokenId} {v : Token} (hi : position ≤ i)
    (hq : host.sequence[i]? = some q) (hv : c.token q = .ok v) : x ≤ date v.start := by
  have hlt := (List.getElem?_eq_some_iff.mp hq).1
  have hl : host.sequence[position]? = some host.sequence[position] :=
    List.getElem?_eq_getElem (by omega)
  obtain ⟨w, hw, -⟩ := (hwf.sequence _ _ hhost).2 _ (List.getElem_mem (by omega : position < _))
  -- the token at the position is the one that the hypothesis is about
  have hfirst : x ≤ date w.start := hafter _ w hl hw
  -- a token further behind starts no earlier, as the one at `position` ends before it
  by_cases hil : i = position
  · subst hil
    obtain rfl := Option.some.inj (hl.symm.trans hq)
    obtain rfl := token_inj hw hv
    exact hfirst
  · have := h.ordered _ _ position i _ q w _ hhost (by omega) hl hq hw hv
    have := h.start_le_stop hwf hm hw
    omega

/-- Dates respect a chronicle with a new token if they fit its duration, the token before it and the
token behind it. -/
theorem Respects.enter {date : Timepoint → Int} (h : c.Respects date)
    (hwf : c.WellFormed m facts) (hm : m.WellFormed) (hserved : c.AllServed b)
    (hhost : c.timeline t.timeline = .ok host) (hposition : position ≤ host.sequence.length)
    (hgrows : c.Grows (c.enter t position))
    (hblank : t.IsBlank)
    (hduration : (host.durationOf t.state).contains (date t.stop - date t.start))
    (hbefore : ∀ p u, before? host.sequence position = some p → c.token p = .ok u →
      date u.stop ≤ date t.start)
    (hafter : ∀ n u, host.sequence[position]? = some n → c.token n = .ok u →
      date t.stop ≤ date u.start) : (c.enter t position).Respects date where
  duration := by
    intro id u g' hu hg'
    rcases token_enter.mp hu with hold | ⟨-, rfl⟩
    · rcases timeline_enter_cases hhost hg' with ⟨htl, rfl⟩ | ⟨-, hg⟩
      · exact h.duration id u host hold (by rw [htl]; exact hhost)
      · exact h.duration id u g' hold hg
    · obtain rfl := timeline_inj (timeline_enter_self hhost) hg'
      exact hduration
  ordered := by
    intro id g' i j p q u v hg' hij hp hq hu hv
    -- tokens that stood on a timeline before are old ones
    have old : ∀ {g} {i : Nat} {k w}, c.timeline id = .ok g → g.sequence[i]? = some k →
        (c.enter t position).token k = .ok w → c.token k = .ok w :=
      fun hg hk hw => hwf.token_of_enter hg (List.mem_of_getElem? hk) hw
    have hold : ∀ g, c.timeline id = .ok g → ∀ i j : Nat, i < j → g.sequence[i]? = some p →
        g.sequence[j]? = some q → date u.stop ≤ date v.start := fun g hg i j hij hp hq =>
      h.ordered id g i j p q u v hg hij hp hq (old hg hp hu) (old hg hq hv)
    rcases timeline_enter_cases hhost hg' with ⟨rfl, rfl⟩ | ⟨-, hg⟩
    · have hold := hold host hhost
      simp only [Timeline.withToken, List.getElem?_insertIdx] at hp hq
      -- in the place of the gap stands the new token
      have new : ∀ (k : TokenId) w, (if position ≤ host.sequence.length then
          some (⟨c.tokens.size⟩ : TokenId) else none) = some k →
          (c.enter t position).token k = .ok w → w = t := by
        intro k w hk hw
        rw [if_pos hposition] at hk
        obtain rfl := Option.some.inj hk
        exact token_inj hw token_enter_self
      -- the new token comes behind all tokens before its place and before all others
      rcases Nat.lt_trichotomy i position with hi | rfl | hi
      · rw [if_pos hi] at hp
        rcases Nat.lt_trichotomy j position with hj | rfl | hj
        · rw [if_pos hj] at hq
          exact hold i j hij hp hq
        · rw [if_neg (lt_irrefl _), if_pos rfl] at hq
          obtain rfl := new q v hq hv
          exact h.stop_le_of_before hwf hm hhost hposition hbefore hi hp (old hhost hp hu)
        · rw [if_neg (by omega), if_neg (by omega)] at hq
          exact hold i (j - 1) (by omega) hp hq
      · rw [if_neg (lt_irrefl _), if_pos rfl] at hp
        obtain rfl := new p u hp hu
        rw [if_neg (by omega), if_neg (by omega)] at hq
        exact h.le_start_of_after hwf hm hhost hafter (by omega) hq (old hhost hq hv)
      · rw [if_neg (by omega), if_neg (by omega)] at hp hq
        exact hold (i - 1) (j - 1) (by omega) hp hq
    · exact hold g' hg i j hij hp hq
  linked := by
    intro id i condition relation p u v hasks hrelation hsupport hu hv
    -- the new token has no supports, so that the link is an old one between old tokens
    have hsupport' := (supportedBy_enter hblank).mp hsupport
    obtain ⟨u', hu', -⟩ := (supportedBy_enter hblank).mp hsupport
    obtain rfl := token_inj (token_enter.mpr (.inl hu')) hu
    have hasks' := hasks.of_grows hwf hgrows hu'
    obtain ⟨v', hv'⟩ := hserved.exists_token hasks' hsupport'
    obtain rfl := token_inj (token_enter.mpr (.inl hv')) hv
    exact h.linked id i condition relation p _ _ hasks' hrelation hsupport' hu' hv'

/-- A blank token takes part in no reservation. -/
theorem Accounted.enter (h : c.Accounted b) (hblank : t.IsBlank) :
    (c.enter t position).Accounted b := by
  refine ⟨fun id r hr => ?_, fun id id' i i' r r' reservation hs hs' => ?_⟩
  · obtain ⟨i, hi⟩ := h.reserved id r hr
    exact ⟨i, (supportedBy_enter hblank).mpr hi⟩
  · exact h.unshared id id' i i' r r' reservation ((supportedBy_enter hblank).mp hs)
      ((supportedBy_enter hblank).mp hs')

/-- Once a blank token has entered, all conditions are served as before. -/
theorem AllServed.enter (h : c.AllServed b) (hwf : c.WellFormed m facts)
    (hgrows : c.Grows (c.enter t position)) (hblank : t.IsBlank) :
    (c.enter t position).AllServed b :=
  h.grows hwf hgrows (.refl b) fun _ _ _ hs => .inl ((supportedBy_enter hblank).mp hs)

/-- A token that enters is locked only as a fact. -/
theorem LockedForCause.enter (h : c.LockedForCause) (hgrows : c.Grows (c.enter t position))
    (hblank : t.IsBlank) (hlocked : t.origin = .planned → t.locked = false) :
    (c.enter t position).LockedForCause := by
  refine LockedForCause.grows h hgrows (fun _ _ _ hs => (supportedBy_enter hblank).mpr hs)
    fun id u hu horigin hu' => ?_
  rcases token_enter.mp hu with hold | ⟨-, rfl⟩
  · exact .inl ⟨u, hold, horigin, hu'⟩
  · rw [hlocked horigin] at hu'
    exact absurd hu' (by simp)

/-! ### A timeline is created -/

variable {new : Timeline}

theorem grows_addTimeline : c.Grows (c.addTimeline new) where
  token := fun _ u hu => ⟨u, hu, rfl, rfl, rfl, rfl, fun h => h⟩
  timeline := fun _ g hg => ⟨g, timeline_addTimeline.mpr (.inl hg), rfl, rfl, rfl⟩
  standsBefore := fun _ _ _ _ _ ⟨id, g, j, hg, hp, hq⟩ =>
    ⟨id, g, j, timeline_addTimeline.mpr (.inl hg), hp, hq⟩

/-- A new timeline has no tokens, and dates respect it. Durations, order and links are all about
tokens that stand somewhere, and those stand where they stood. -/
theorem Respects.addTimeline {date : Timepoint → Int} (h : c.Respects date)
    (hwf : c.WellFormed m facts) (hempty : new.sequence = []) :
    (c.addTimeline new).Respects date where
  duration := by
    intro id u g hu hg
    obtain ⟨g', hg', -⟩ := hwf.placed id u hu
    obtain rfl := timeline_inj (timeline_addTimeline.mpr (.inl hg')) hg
    exact h.duration id u _ hu hg'
  ordered := by
    intro id g i j p q u v hg hij hp hq hu hv
    rcases timeline_addTimeline.mp hg with hg | ⟨-, rfl⟩
    · exact h.ordered id g i j p q u v hg hij hp hq hu hv
    · -- no two tokens stand on the new timeline
      simp [hempty] at hp
  linked := by
    intro id i condition relation p u v hasks hrelation hsupport hu hv
    -- what a token asks for is read off its own timeline, which was there before
    exact h.linked id i condition relation p u v (hasks.of_grows hwf grows_addTimeline hu) hrelation
      hsupport hu hv

theorem LockedForCause.addTimeline (h : c.LockedForCause) : (c.addTimeline new).LockedForCause :=
  LockedForCause.grows h grows_addTimeline (fun _ _ _ hs => hs)
    fun _ u hu horigin hlocked => .inl ⟨u, hu, horigin, hlocked⟩

/-! ### A goal is served -/

/-- The token of a goal is noted down beside the tokens and timelines. -/
theorem grows_setGoalSupport {g : Nat} {id : Option TokenId} : c.Grows (c.setGoalSupport g id) :=
  ⟨fun _ u hu => ⟨u, hu, rfl, rfl, rfl, rfl, fun h => h⟩, fun _ g hg => ⟨g, hg, rfl, rfl, rfl⟩,
    fun _ _ _ _ _ h => h⟩

theorem Respects.setGoalSupport {date : Timepoint → Int} (h : c.Respects date) {g : Nat}
    {id : Option TokenId} : (c.setGoalSupport g id).Respects date :=
  ⟨h.duration, h.ordered, h.linked⟩

theorem grows_setSealed {id : TimelineId} {sealed : Bool} : c.Grows (c.setSealed id sealed) :=
  (alike_setSealed id sealed).grows fun _ _ _ ht ht' hlocked => by
    obtain rfl := token_inj ht ht'
    exact hlocked

theorem Respects.setSealed {date : Timepoint → Int} (h : c.Respects date)
    (hwf : c.WellFormed m facts)
    {id : TimelineId} {sealed : Bool} : (c.setSealed id sealed).Respects date :=
  h.of_alike hwf (alike_setSealed id sealed) grows_setSealed fun _ _ _ _ _ _ _ _ _ hs _ _ => .inl hs

end Chronicle

end TemporalPlanning
