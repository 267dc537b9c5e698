import TemporalPlanning.Proofs.Reservation.Compulsory

/-!
# Overloads

Some dates fit a book of reservations if no resource is overloaded under them at any instant
(`ReservationBook.Fitting`). As long as such dates are a solution of the network, the check of the
capacities finds no dead end (`ReservationBook.Fitting.checkCapacity_ne`), and among the members of
a conflict there are two that can overlap but follow each other under these dates
(`ReservationBook.Fitting.exists_ordered`).
-/

namespace TemporalPlanning

namespace ReservationBook

variable {b : ReservationBook} {net : Network} {date : Timepoint → Int} {horizon : Option Int}
  {capacity : Nat}

/-- No resource is overloaded under some dates. -/
def Fitting (b : ReservationBook) (date : Timepoint → Int) : Prop :=
  ∀ id r capacity, b.resource? id = some r → r.capacity = some capacity →
    (∀ e ∈ b.on id, e.2.amount ≤ capacity) ∧ ∀ t, Usage.total (b.usages date id) t ≤ capacity

/-- **Under dates that fit, the check of the capacities finds nothing.** What is bound to be in use
at an instant is in use there under every solution, and so under these dates. -/
theorem Fitting.checkCapacity_ne (hb : b.Fitting date) (h : net.Steady horizon)
    (hdated : b.Dated net) (hdate : net.Fits date) {why : DeadEnd} :
    b.checkCapacity net ≠ .ok (some why) := by
  intro hcheck
  obtain ⟨id, r, hr, hcheck⟩ := checkCapacity_eq_some hcheck
  obtain ⟨capacity, hcapacity⟩ := exists_capacity_of_checkResource hcheck
  obtain ⟨hheld, htotal⟩ := hb id r capacity hr hcapacity
  obtain ⟨usage, -, hlt, hreached⟩ := overload_of_checkResource hcapacity hcheck
  obtain ⟨t, rfl⟩ := hreached hheld
  -- the units that must be in use are in use under these dates, which keep to the capacity
  have hle : b.forced net id t ≤ Usage.total (b.usages date id) (date .origin + t) :=
    forced_le_total hdate h.closed.square.contains_origin (fun t ht => h.atMost_origin ht) hdated t
  exact absurd (hle.trans (htotal _)) (not_le.mpr hlt)

/-! ### Conflicts -/

/-- Reservations of a resource that together exceed its capacity and can overlap. -/
structure Competes (b : ReservationBook) (net : Network) (id : ResourceId) (capacity : Nat)
    (es : List (ReservationId × Reservation)) : Prop where
  sublist : es.Sublist (b.on id)
  lt_sum : capacity < (es.map (·.2.amount)).sum
  canOverlap : es.Pairwise fun e f => ∀ answer, e.2.canOverlap net f.2 = .ok answer → answer = true

section

variable {id : ResourceId} {es : List (ReservationId × Reservation)}

theorem Competes.reservation? (h : b.Competes net id capacity es) :
    ∀ e ∈ es, b.reservation? e.1 = some e.2 := fun _ he =>
  (mem_on.mp (h.sublist.subset he)).1

/-- Competing reservations come in the order of their handles. -/
theorem Competes.increasing (h : b.Competes net id capacity es) :
    (es.map (·.1)).Pairwise fun a a' => a.index < a'.index :=
  List.pairwise_map.mpr ((increasing_on id).sublist h.sublist)

/-- No reservation competes with itself: the members of a conflict are distinct, as a sublist of
what is listed on the resource. -/
theorem Competes.nodup (h : b.Competes net id capacity es) : (es.map (·.1)).Nodup :=
  h.increasing.imp fun hlt heq => absurd (congrArg ReservationId.index heq) hlt.ne

/-- Every two competing reservations are found to overlap. -/
theorem Competes.pairwise_canOverlap (h : b.Competes net id capacity es) (hdated : b.Dated net) :
    es.Pairwise fun e f => e.2.canOverlap net f.2 = .ok true := by
  refine h.canOverlap.imp_of_mem fun {e f} he hf hoverlap => ?_
  obtain ⟨answer, hanswer⟩ := (hdated _ _ (h.reservation? e he)).exists_canOverlap
    (hdated _ _ (h.reservation? f hf))
  rw [hanswer, hoverlap answer hanswer]

end

/-- A conflicting pair competes: it is listed in order, needs more than there is, and can overlap.
The list may be any part of what stands on the resource, because the search goes on with shorter and
shorter rests of it. -/
theorem competes_of_mem_conflictingPairs {id : ResourceId}
    {live : List (ReservationId × Reservation)} (hlive : live.Sublist (b.on id))
    {pairs : List (List ReservationId)} (h : conflictingPairs net capacity live = .ok pairs)
    {members : List ReservationId} (hmem : members ∈ pairs) :
    ∃ e f, b.Competes net id capacity [e, f] ∧ members = [e.1, f.1] := by
  induction live generalizing pairs with
  | nil =>
    obtain rfl := Except.ok.inj h
    exact absurd hmem List.not_mem_nil
  | cons e rest ih =>
    obtain ⟨found, hfound, h⟩ := Fault.bind_eq_ok.mp h
    obtain ⟨others, hothers, h⟩ := Fault.bind_eq_ok.mp h
    obtain rfl := Except.ok.inj h
    -- a pair starts with the first reservation, or is found among the others
    rcases List.mem_append.mp hmem with hmem | hmem
    · obtain ⟨f, hf, rfl⟩ := List.mem_map.mp hmem
      obtain ⟨hf, htest⟩ := ((Fault.mem_filter hfound).2 f).mp hf
      dsimp only at htest
      split at htest
      · next hlt =>
        have hsub : [e, f].Sublist (e :: rest) :=
          List.Sublist.cons_cons e (List.singleton_sublist.mpr hf)
        refine ⟨e, f, ⟨hsub.trans hlive, ?_, ?_⟩, rfl⟩
        · simpa using hlt
        · -- the test that put the pair into the list is the one that is asked for
          refine List.pairwise_pair.mpr fun answer hanswer => ?_
          exact (Except.ok.inj (htest.symm.trans hanswer)).symm
      · exact absurd (Except.ok.inj htest) Bool.false_ne_true
    · exact ih ((List.sublist_cons_self e rest).trans hlive) hothers hmem

/-- A crowded set competes. Its members are active at one instant of a schedule that fits, so that
they can overlap pairwise, and all of them last under that schedule. -/
theorem competes_of_mem_crowdedSets {id : ResourceId} {date' : Timepoint → Int}
    (hdate' : net.Fits date') {rest : List (ReservationId × Reservation)}
    {seen sets : List (List ReservationId)}
    (h : crowdedSets (net.timepoints.map date') capacity (b.on id) seen rest = .ok sets)
    {members : List ReservationId} (hmem : members ∈ sets) :
    ∃ es, b.Competes net id capacity es ∧ members = es.map (·.1) ∧ 2 ≤ members.length ∧
      ∀ e ∈ es, date' e.2.start < date' e.2.stop := by
  -- along the reservations that are still to be tried as starts of a crowd
  induction rest generalizing seen sets with
  | nil =>
    obtain rfl := Except.ok.inj h
    exact absurd hmem List.not_mem_nil
  | cons e rest ih =>
    obtain ⟨instant, hinstant, h⟩ := Fault.bind_eq_ok.mp h
    obtain ⟨active, hactive, h⟩ := Fault.bind_eq_ok.mp h
    dsimp only at h
    split at h
    · next hcrowded =>
      obtain ⟨others, hothers, h⟩ := Fault.bind_eq_ok.mp h
      obtain rfl := Except.ok.inj h
      rcases List.mem_cons.mp hmem with rfl | hmem
      · have hsub := filter_activeAt hactive
        refine ⟨active, ⟨by rw [hsub]; exact List.filter_sublist, ?_, ?_⟩, rfl, hcrowded.2.1.le,
          fun e he => ?_⟩
        · have := hcrowded.1
          rwa [List.sum_eq_foldr, List.foldr_map]
        · -- what is active at one instant can overlap
          refine List.pairwise_of_forall_mem_list fun f hf g hg answer hanswer => ?_
          rw [hsub] at hf hg
          exact Reservation.canOverlap_of_activeAt hdate' (List.mem_filter.mp hf).2
            (List.mem_filter.mp hg).2 hanswer
        · -- what is active at an instant starts before it stops
          rw [hsub] at he
          have hactive := Usage.activeAt_iff.mp (List.mem_filter.mp he).2
          exact hactive.1.trans_lt hactive.2
      · exact ih hothers hmem
    · exact ih h hmem

/-- The members of a conflict compete. They are two, or each of them lasts under the dates that
the sets were sought with. -/
theorem competes_of_mem_conflicts {date' : Timepoint → Int} (hdate' : net.Fits date')
    {cs : List Conflict} (h : b.conflicts net (net.timepoints.map date') = .ok cs) {c : Conflict}
    (hc : c ∈ cs) : ∃ r capacity es, b.resource? c.resource = some r ∧ r.capacity = some capacity ∧
      b.Competes net c.resource capacity es ∧ c.members = es.map (·.1) ∧
      2 ≤ c.members.length ∧
      ((∃ e f, es = [e, f]) ∨ ∀ e ∈ es, date' e.2.start < date' e.2.stop) := by
  obtain ⟨r, capacity, pairs, sets, hr, hcapacity, hpairs, hsets, hmembers⟩ :=
    exists_of_mem_conflicts h hc
  -- a conflict is a pair that together is too much, or a set found at one instant
  rcases hmembers with hpair | hset
  · obtain ⟨e, f, hes, hmembers⟩ :=
      competes_of_mem_conflictingPairs (List.Sublist.refl _) hpairs hpair
    exact ⟨r, capacity, [e, f], hr, hcapacity, hes, hmembers, by rw [hmembers]; exact le_rfl,
      .inl ⟨e, f, rfl⟩⟩
  · obtain ⟨es, hes, hmembers, hlength, hlasts⟩ := competes_of_mem_crowdedSets hdate' hsets hset
    exact ⟨r, capacity, es, hr, hcapacity, hes, hmembers, hlength, .inr hlasts⟩

/-- Some reservations come in no order under some dates: each starts before any other one stops. -/
def Unordered (date : Timepoint → Int) (es : List (ReservationId × Reservation)) : Prop :=
  es.Pairwise fun e f => date e.2.start < date f.2.stop ∧ date f.2.start < date e.2.stop

/-- Reservations of which none follows another have usages of which none follows another. -/
theorem Unordered.usages {es : List (ReservationId × Reservation)} (h : Unordered date es) :
    (es.map fun e => e.2.usage date).Pairwise fun u v => u.start < v.stop ∧ v.start < u.stop :=
  List.pairwise_map.mpr h

/-- Competing reservations that all last come in some order under dates that fit: else they would
all go on when the last of them starts. -/
theorem Fitting.not_unordered_of_lasts (hb : b.Fitting date) {id : ResourceId} {r : Resource}
    (hr : b.resource? id = some r) (hcapacity : r.capacity = some capacity)
    {es : List (ReservationId × Reservation)} (hes : b.Competes net id capacity es)
    (hlasts : ∀ e ∈ es, date e.2.start < date e.2.stop) : ¬ Unordered date es := by
  intro hnone
  obtain ⟨t, ht⟩ := Usage.exists_total_eq_sum (List.forall_mem_map.mpr hlasts) hnone.usages
  have hsub := (hes.sublist.map fun e => e.2.usage date).subperm
  have hle := (Usage.total_le_of_subperm hsub).trans ((hb id r capacity hr hcapacity).2 t)
  rw [ht, List.map_map] at hle
  exact absurd hle (not_le.mpr hes.lt_sum)

/-- Competing reservations of which one is an instant with room for what goes on across it come in
some order. -/
theorem Competes.not_unordered_of_spared {id : ResourceId}
    {es : List (ReservationId × Reservation)} (hes : b.Competes net id capacity es)
    {e : ReservationId × Reservation} (he : e ∈ es) (hstop : date e.2.stop ≤ date e.2.start)
    (hspare : e.2.amount + Usage.across (b.usages date id) (date e.2.start) ≤ capacity) :
    ¬ Unordered date es := by
  intro hnone
  have hsub := (hes.sublist.map fun e => e.2.usage date).subperm
  -- the instant lies inside all the others
  have hle := Usage.sum_le_across (List.mem_map_of_mem he) hstop hnone.usages
  rw [List.map_map] at hle
  refine absurd (hle.trans ?_) (not_le.mpr hes.lt_sum)
  exact (Nat.add_le_add_left (Usage.across_le_of_subperm hsub) _).trans hspare

/-- Two competing reservations come in some order if each is spared by the other whenever it is an
instant within that. -/
theorem Competes.not_unordered_of_pair {id : ResourceId} {e f : ReservationId × Reservation}
    (hes : b.Competes net id capacity [e, f])
    (hlasts : date e.2.stop ≤ date e.2.start ∨ date f.2.stop ≤ date f.2.start)
    (hpair : ∀ g ∈ b.on id, ∀ h ∈ b.on id, date g.2.stop ≤ date g.2.start →
      date h.2.start < date g.2.start → date g.2.start < date h.2.stop →
        g.2.amount + h.2.amount ≤ capacity) : ¬ Unordered date [e, f] := by
  intro hnone
  have hlt := hes.lt_sum
  have he := hes.sublist.subset (List.mem_cons_self : e ∈ [e, f])
  have hf := hes.sublist.subset (by simp : f ∈ [e, f])
  obtain ⟨hef, hfe⟩ := List.pairwise_pair.mp hnone
  -- together the two need more than the capacity
  simp only [List.map_cons, List.map_nil, List.sum_cons, List.sum_nil] at hlt
  -- the short one lies inside the other, where `hpair` allows both
  rcases hlasts with hstop | hstop
  · have := hpair e he f hf hstop (hfe.trans_le hstop) hef
    omega
  · have := hpair f hf e he hstop (hef.trans_le hstop) hfe
    omega

/-- Of reservations that come in some order, there are two of which one stops before the other
starts. -/
theorem exists_of_not_unordered {es : List (ReservationId × Reservation)}
    (h : ¬ Unordered date es) : ∃ e f, [e, f].Sublist es ∧
      (date e.2.stop ≤ date f.2.start ∨ date f.2.stop ≤ date e.2.start) := by
  by_contra hnone
  push Not at hnone
  refine h (List.pairwise_iff_forall_sublist.mpr fun {e f} hsub => ?_)
  exact (hnone e f hsub).symm

/-- **Of the members of a conflict, two follow each other** under dates that fit, if an instant
within another reservation finds its units left by that one, and if each member that is an instant
is spared by what goes on across it, unless the members are two. -/
theorem Fitting.exists_ordered (hb : b.Fitting date) {id : ResourceId} {r : Resource}
    (hr : b.resource? id = some r) (hcapacity : r.capacity = some capacity)
    (hpair : ∀ e ∈ b.on id, ∀ f ∈ b.on id, date e.2.stop ≤ date e.2.start →
      date f.2.start < date e.2.start → date e.2.start < date f.2.stop →
        e.2.amount + f.2.amount ≤ capacity)
    {es : List (ReservationId × Reservation)} (hes : b.Competes net id capacity es)
    (hspared : (∃ e f, es = [e, f]) ∨ ∀ e ∈ es, date e.2.stop ≤ date e.2.start →
      e.2.amount + Usage.across (b.usages date id) (date e.2.start) ≤ capacity) :
    ∃ e f, [e, f].Sublist es ∧
      (date e.2.stop ≤ date f.2.start ∨ date f.2.stop ≤ date e.2.start) := by
  refine exists_of_not_unordered ?_
  -- if all of them last, they share an instant at which the capacity would be exceeded
  by_cases hlasts : ∀ e ∈ es, date e.2.start < date e.2.stop
  · exact hb.not_unordered_of_lasts hr hcapacity hes hlasts
  · push Not at hlasts
    -- one of them has no duration in the solution: the two extra hypotheses are for this case
    obtain ⟨e, he, hstop⟩ := hlasts
    rcases hspared with ⟨f, g, rfl⟩ | hspared
    · have hstops : date f.2.stop ≤ date f.2.start ∨ date g.2.stop ≤ date g.2.start := by
        rcases List.mem_pair.mp he with rfl | rfl
        · exact .inl hstop
        · exact .inr hstop
      exact hes.not_unordered_of_pair hstops hpair
    · exact hes.not_unordered_of_spared he hstop (hspared e he hstop)

end ReservationBook

end TemporalPlanning
