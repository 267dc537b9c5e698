import TemporalPlanning.Proofs.Network.Solutions
import TemporalPlanning.Proofs.Reservation.Book
import TemporalPlanning.Proofs.Usage
import TemporalPlanning.Reservation.Conflict

/-!
# Capacity

If no reservation alone takes more of a resource than there is, and if the resource has no
conflicts under the dates of a solution, then its capacity is kept at every start
(`ReservationBook.total_le_of_conflicts`): what is active at a start is a single reservation, or a
pair that would be a conflict if the network let it overlap, or a larger set that the dates show to
be a conflict.
-/

namespace TemporalPlanning

/-- The usage of a reservation under some dates. -/
def Reservation.usage (date : Timepoint → Int) (r : Reservation) : Usage :=
  ⟨date r.start, date r.stop, r.amount⟩

/-- The usages of a resource under some dates. -/
def ReservationBook.usages (b : ReservationBook) (date : Timepoint → Int) (id : ResourceId) :
    List Usage :=
  (b.on id).map fun e => e.2.usage date

namespace Reservation

variable {net : Network} {date : Timepoint → Int}

/-- Reservations that share an instant in some solution can overlap. It is the direction that makes
leaving out pairs safe: those that cannot overlap never do. -/
theorem canOverlap_of_activeAt (hdate : net.Fits date) {r r' : Reservation} {t : Int}
    (hr : (r.usage date).activeAt t) (hr' : (r'.usage date).activeAt t) {answer : Bool}
    (h : r.canOverlap net r' = .ok answer) : answer = true := by
  have hr := Usage.activeAt_iff.mp hr
  have hr' := Usage.activeAt_iff.mp hr'
  dsimp only [usage] at hr hr'
  obtain ⟨-, -, h⟩ := Fault.bind_eq_ok.mp h
  obtain ⟨-, -, h⟩ := Fault.bind_eq_ok.mp h
  -- the instant lies in both, so each may end after the other begins
  rw [if_pos (hdate.canBeAfter (by omega))] at h
  obtain ⟨-, -, h⟩ := Fault.bind_eq_ok.mp h
  obtain ⟨-, -, h⟩ := Fault.bind_eq_ok.mp h
  rw [← Fault.pure_eq_ok.mp h]
  exact hdate.canBeAfter (by omega)

/-- The date of a timepoint of the network. -/
theorem dateOf_eq_ok {t : Timepoint} {d : Int} :
    dateOf (net.timepoints.map date) t = .ok d ↔ net.contains t ∧ d = date t := by
  rw [dateOf, Fault.require_eq_ok, List.getElem?_map, Network.timepoints, List.getElem?_map,
    Network.contains_iff]
  by_cases hlt : t.index < net.size
  · rw [List.getElem?_range hlt]
    simp [hlt, eq_comm]
  · rw [List.getElem?_eq_none (by simpa using hlt)]
    simp [hlt]

/-- Under the dates of a schedule a reservation is active when its usage is, if the test gives an
answer at all: it looks up the stop only after the start has been reached. -/
theorem activeAt_eq_ok {r : Reservation} {t : Int} {answer : Bool}
    (h : r.activeAt (net.timepoints.map date) t = .ok answer) :
    answer = (r.usage date).activeAt t := by
  obtain ⟨start, hstart, h⟩ := Fault.bind_eq_ok.mp h
  obtain ⟨-, rfl⟩ := dateOf_eq_ok.mp hstart
  split at h
  · -- the end is looked up only for a reservation that has begun
    next hle =>
    obtain ⟨stop, hstop, h⟩ := Fault.bind_eq_ok.mp h
    obtain ⟨-, rfl⟩ := dateOf_eq_ok.mp hstop
    rw [← Fault.pure_eq_ok.mp h, Bool.eq_iff_iff, Usage.activeAt_iff]
    simp [usage, hle]
  · next hle =>
    rw [← Fault.pure_eq_ok.mp h, Bool.eq_iff_iff, Usage.activeAt_iff]
    simp [usage, hle]

end Reservation

namespace ReservationBook

variable {b : ReservationBook} {net : Network} {date : Timepoint → Int} {capacity : Nat}

/-- Without conflicting pairs, no two reservations that need too much can overlap. Every reservation
is compared with those listed behind it, and the comparison that finds nothing has still been made
without fault. -/
theorem pairwise_of_conflictingPairs {live : List (ReservationId × Reservation)}
    (h : conflictingPairs net capacity live = .ok []) : live.Pairwise fun e f =>
      capacity < e.2.amount + f.2.amount → e.2.canOverlap net f.2 = .ok false := by
  induction live with
  | nil => exact .nil
  | cons e rest ih =>
    obtain ⟨found, hfound, h⟩ := Fault.bind_eq_ok.mp h
    obtain ⟨others, hothers, h⟩ := Fault.bind_eq_ok.mp h
    obtain ⟨hnone, rfl⟩ := List.append_eq_nil_iff.mp (Fault.pure_eq_ok.mp h)
    obtain rfl := List.map_eq_nil_iff.mp hnone
    -- the first against the others, and then the others among themselves
    refine .cons (fun f hf hlt => ?_) (ih hothers)
    obtain ⟨htest, hmem⟩ := Fault.mem_filter hfound
    obtain ⟨passes, hpasses⟩ := htest f hf
    -- no pair was found, so that those that need too much cannot overlap
    cases passes with
    | true => exact absurd ((hmem f).mpr ⟨hf, hpasses⟩) List.not_mem_nil
    | false =>
      dsimp only at hpasses
      rwa [if_pos hlt] at hpasses

/-- The units in use at an instant are those of the active reservations. -/
theorem total_usages {live : List (ReservationId × Reservation)} {t : Int} :
    Usage.total (live.map fun e => e.2.usage date) t =
      (live.filter fun e => (e.2.usage date).activeAt t).foldr (fun e sum => e.2.amount + sum)
        0 := by
  rw [Usage.total, List.filter_map, List.foldr_map]
  rfl

/-- What a schedule shows to be active at an instant. The schedule is given as a list of dates, one
for each timepoint, and every look-up in it has succeeded. -/
theorem filter_activeAt {live active : List (ReservationId × Reservation)} {t : Int}
    (h : Fault.filter (fun (_, o) => o.activeAt (net.timepoints.map date) t) live = .ok active) :
    active = live.filter fun e => (e.2.usage date).activeAt t := by
  obtain ⟨htest, -⟩ := Fault.mem_filter h
  -- every test succeeded, so the filter is the plain one on the dates
  have heq : Fault.filter (fun e : ReservationId × Reservation =>
        e.2.activeAt (net.timepoints.map date) t) live =
      .ok (live.filter fun e => (e.2.usage date).activeAt t) := by
    refine Fault.filter_eq_ok fun e he => ?_
    obtain ⟨answer, hanswer⟩ := htest e he
    rw [← Reservation.activeAt_eq_ok hanswer]
    exact hanswer
  exact Except.ok.inj (h.symm.trans heq)

/-- Without crowded sets, at most two reservations are active at a start where more is in use than
the capacity. Two of them are left to the test of pairs. -/
theorem length_le_of_crowdedSets {live rest : List (ReservationId × Reservation)}
    (h : crowdedSets (net.timepoints.map date) capacity live [] rest = .ok []) :
    ∀ e ∈ rest, capacity < Usage.total (live.map fun e => e.2.usage date) (date e.2.start) →
      (live.filter fun f => (f.2.usage date).activeAt (date e.2.start)).length ≤ 2 := by
  induction rest with
  | nil => simp
  | cons e rest ih =>
    obtain ⟨instant, hinstant, h⟩ := Fault.bind_eq_ok.mp h
    obtain ⟨active, hactive, h⟩ := Fault.bind_eq_ok.mp h
    obtain ⟨-, rfl⟩ := Reservation.dateOf_eq_ok.mp hinstant
    obtain rfl := filter_activeAt hactive
    dsimp only at h
    split at h
    · obtain ⟨others, -, h⟩ := Fault.bind_eq_ok.mp h
      -- a set that is found stays in the result
      exact absurd (Fault.pure_eq_ok.mp h) (List.cons_ne_nil _ _)
    · next hcrowded =>
      refine List.forall_mem_cons.mpr ⟨fun hlt => ?_, ih h⟩
      rw [total_usages] at hlt
      -- three or more would make a crowded set
      by_contra hlength
      exact hcrowded ⟨hlt, by rw [List.length_map]; omega, List.not_mem_nil⟩

/-- A conflict is about a resource of the book, and it is a pair that can overlap or a set that is
crowded at some date. -/
theorem exists_of_mem_conflicts {schedule : List Int} {found : List Conflict}
    (h : b.conflicts net schedule = .ok found) {c : Conflict} (hc : c ∈ found) :
    ∃ r capacity pairs sets, b.resource? c.resource = some r ∧ r.capacity = some capacity ∧
      conflictingPairs net capacity (b.on c.resource) = .ok pairs ∧
      crowdedSets schedule capacity (b.on c.resource) [] (b.on c.resource) = .ok sets ∧
      (c.members ∈ pairs ∨ c.members ∈ sets) := by
  obtain ⟨lists, hlists, h⟩ := Fault.bind_eq_ok.mp h
  obtain rfl := Except.ok.inj h
  obtain ⟨cs, hcs, hc⟩ := List.mem_flatten.mp hc
  obtain ⟨⟨id, r⟩, hmem, hon⟩ := (Fault.mem_mapM hlists).2 cs hcs
  dsimp only [conflictsOn] at hon
  -- the lists were made resource by resource, so that the conflict is from the list of its own
  cases hcapacity : r.capacity with
  | none =>
    rw [hcapacity] at hon
    obtain rfl := Except.ok.inj hon
    -- without a capacity there is no conflict
    exact absurd hc List.not_mem_nil
  | some capacity =>
    rw [hcapacity] at hon
    obtain ⟨pairs, hpairs, hon⟩ := Fault.bind_eq_ok.mp hon
    obtain ⟨sets, hsets, hon⟩ := Fault.bind_eq_ok.mp hon
    obtain rfl := Except.ok.inj hon
    obtain ⟨members, hmembers, rfl⟩ := List.mem_map.mp hc
    exact ⟨r, capacity, pairs, sets, mem_entries.mp hmem, hcapacity, hpairs, hsets,
      List.mem_append.mp hmembers⟩

/-- The conflicts of every resource are among all conflicts. -/
theorem conflictsOn_eq_nil {schedule : List Int} (h : b.conflicts net schedule = .ok [])
    {id : ResourceId} {r : Resource} (hr : b.resource? id = some r) :
    b.conflictsOn net schedule id r = .ok [] := by
  obtain ⟨found, hfound, h⟩ := Fault.bind_eq_ok.mp h
  obtain ⟨cs, hcs, hid⟩ := (Fault.mem_mapM hfound).1 (id, r) (mem_entries.mpr hr)
  rwa [List.flatten_eq_nil_iff.mp (Fault.pure_eq_ok.mp h) cs hcs] at hid

/-- **Without conflicts the capacity is kept** at every start, if every reservation alone fits. One
reservation fits by hypothesis, two by the search for pairs, and three or more would be one of the
sets that the search looks for at the starts. -/
theorem total_le_of_conflicts (hdate : net.Fits date)
    (h : b.conflicts net (net.timepoints.map date) = .ok []) {id : ResourceId} {r : Resource}
    (hr : b.resource? id = some r) (hcapacity : r.capacity = some capacity)
    (hheld : ∀ e ∈ b.on id, e.2.amount ≤ capacity) {e : ReservationId × Reservation}
    (he : e ∈ b.on id) : Usage.total (b.usages date id) (date e.2.start) ≤ capacity := by
  have hon := conflictsOn_eq_nil h hr
  rw [conflictsOn, hcapacity] at hon
  obtain ⟨pairs, hpairs, hon⟩ := Fault.bind_eq_ok.mp hon
  obtain ⟨sets, hsets, hon⟩ := Fault.bind_eq_ok.mp hon
  obtain ⟨rfl, rfl⟩ := List.append_eq_nil_iff.mp (List.map_eq_nil_iff.mp (Fault.pure_eq_ok.mp hon))
  by_contra hlt
  rw [not_le] at hlt
  -- no set was listed for this start, although too much is in use
  have hlength := length_le_of_crowdedSets hsets e he hlt
  rw [usages, total_usages] at hlt
  have hpairwise := (pairwise_of_conflictingPairs hpairs).filter
    fun f => (f.2.usage date).activeAt (date e.2.start)
  have hactive : ∀ f ∈ (b.on id).filter fun f => (f.2.usage date).activeAt (date e.2.start),
      f ∈ b.on id ∧ (f.2.usage date).activeAt (date e.2.start) := fun f hf => List.mem_filter.mp hf
  -- at most two reservations are active
  generalize (b.on id).filter (fun f => (f.2.usage date).activeAt (date e.2.start)) = active at *
  -- one of them is within the capacity alone, two are no conflicting pair, and three would be a set
  match active with
  | [] => simp at hlt
  | [f] =>
    have := hheld f (hactive f (by simp)).1
    simp only [List.foldr_cons, List.foldr_nil] at hlt
    omega
  | [f, g] =>
    obtain ⟨-, hf⟩ := hactive f (by simp)
    obtain ⟨-, hg⟩ := hactive g (by simp)
    have hfalse := (List.pairwise_cons.mp hpairwise).1 g (by simp) (by simpa using hlt)
    exact absurd (Reservation.canOverlap_of_activeAt hdate hf hg hfalse) Bool.false_ne_true
  | f :: g :: k :: others => simp at hlength

end ReservationBook

end TemporalPlanning
