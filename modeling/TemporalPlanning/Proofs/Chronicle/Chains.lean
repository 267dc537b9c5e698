import Mathlib.Data.Finset.Insert
import Mathlib.Logic.Relation
import Mathlib.Order.WellFounded
import TemporalPlanning.Proofs.Chronicle.Placement
import TemporalPlanning.Proofs.Chronicle.Reachability

/-!
# The chains that close are all there are

The ancestors of some states are the states to which a path of sources leads
(`Reachability.mem_ancestors_iff`): there are no others, because only sources of what was found are
gone on with, and none is missing, because what was found is closed. So a state can follow another
one just in case a path leads from it to a state without sources or to the other one
(`Reachability.canFollow_iff`).

The ancestors can be found with a worklist as well. However it is worked off, this ends
(`Reachability.wellFounded_step`): a template is visited once, and otherwise the list gets shorter.
What was seen then are the ancestors (`Reachability.mem_seen_iff`).

In a row of tokens in which each planned one comes right after its sources
(`Reachability.Chained`), every token therefore can follow the ones before it. A place that a
timeline refuses for the sake of the chain is a place where no such row has a token of the state
(`Reachability.not_chained_of_refused`).
-/

namespace TemporalPlanning

/-- The state before a place that is not the first is that of the last token before it. -/
theorem Chronicle.stateBefore?_succ {c : Chronicle} {host : Timeline} {q : Nat}
    {current : List Token} {previous : Option String} (hq : q + 1 ≤ host.sequence.length)
    (hcurrent : (host.sequence.take (q + 1)).mapM c.token = .ok current)
    (h : c.stateBefore? host (q + 1) = .ok previous) :
    ∃ u, current[q]? = some u ∧ previous = some u.state := by
  have hfound := Fault.mapM_eq_ok.mp hcurrent
  have hlength := hfound.length_eq
  rw [List.length_take, Nat.min_eq_left hq] at hlength
  -- both look up the token at place `q`
  have hu := hfound.get (i := q) (by rw [List.length_take]; omega) (by omega)
  have hbefore : before? host.sequence (q + 1) = some host.sequence[q] :=
    List.getElem?_eq_getElem hq
  rw [stateBefore?, hbefore] at h
  obtain ⟨u, hu', h⟩ := Fault.bind_eq_ok.mp h
  -- the state in front of the place is that of the token found there
  refine ⟨u, ?_, (Except.ok.inj h).symm⟩
  rw [List.get_eq_getElem, List.getElem_take] at hu
  obtain rfl := token_inj hu hu'
  exact List.getElem?_eq_getElem (by omega)

namespace Reachability

variable {states : List StateTemplate} {frontier : List String} {v w x : String}

/-! ### Paths of sources -/

/-- The states that may come right before a state; none if it is not declared. -/
def sourcesOf (states : List StateTemplate) (v : String) : List String :=
  ((states.find? fun t => t.name == v).map (·.sources)).getD []

/-- `Source states v w`: `w` is a source of `v`. -/
def Source (states : List StateTemplate) (v w : String) : Prop := w ∈ sourcesOf states v

/-- One state is a source of another if the template that is found first under its name says so. -/
theorem source_iff :
    Source states v w ↔ ∃ t, states.find? (fun t => t.name == v) = some t ∧ w ∈ t.sources := by
  rw [Source, sourcesOf]
  cases states.find? (fun t => t.name == v) <;> simp

/-- With a name of its own, a template is found by it. -/
theorem find?_eq_some_iff (hnames : (states.map (·.name)).Nodup) {t : StateTemplate} :
    states.find? (fun t => t.name == v) = some t ↔ t ∈ states ∧ t.name = v := by
  refine ⟨fun h => ⟨List.mem_of_find?_eq_some h, by simpa using List.find?_some h⟩, ?_⟩
  rintro ⟨ht, rfl⟩
  obtain ⟨u, hu⟩ := Option.isSome_iff_exists.mp
    (List.find?_isSome (p := fun u => u.name == t.name).mpr ⟨t, ht, beq_self_eq_true _⟩)
  have hname : u.name = t.name := by simpa using List.find?_some hu
  rw [hu, List.inj_on_of_nodup_map hnames (List.mem_of_find?_eq_some hu) ht hname]

/-- What is closed has the states to which a path leads from it. -/
theorem Closed.mem_of_path {found : List String} (h : Closed states frontier found)
    (hpath : Relation.ReflTransGen (Source states) v x) (hv : v ∈ found) : x ∈ found := by
  induction hpath with
  | refl => exact hv
  | tail _ hsource ih =>
    obtain ⟨t, ht, hmem⟩ := source_iff.mp hsource
    exact h.sources_subset _ ih t ht hmem

/-- Only states to which a path leads are gone through. `unvisited` are templates of `states`. The
induction is on the number of states that may still be gone through: one template is taken away for
each state that joins the list. -/
theorem path_of_mem_ancestorsWithin {n : Nat} {unvisited : List StateTemplate}
    (hfind : ∀ v t, unvisited.find? (fun t => t.name == v) = some t →
      states.find? (fun t => t.name == v) = some t)
    (h : x ∈ ancestorsWithin n unvisited frontier) :
    ∃ v ∈ frontier, Relation.ReflTransGen (Source states) v x := by
  -- the outer induction is on the number of rounds, the inner one on the states that are left to
  -- expand
  induction n generalizing unvisited frontier with
  | zero => exact ⟨x, h, .refl⟩
  | succ n ih =>
    rw [ancestorsWithin] at h
    induction frontier with
    | nil => exact absurd h List.not_mem_nil
    | cons state frontier ihf =>
      rw [expand] at h
      split at h
      · rcases List.mem_cons.mp h with rfl | h
        · exact ⟨_, List.mem_cons_self, .refl⟩
        · obtain ⟨v, hv, hpath⟩ := ihf h
          exact ⟨v, List.mem_cons_of_mem _ hv, hpath⟩
      · next t ht =>
        rcases List.mem_cons.mp h with rfl | h
        · exact ⟨_, List.mem_cons_self, .refl⟩
        · -- the templates left are those of other states
          have hfind' : ∀ v u, (unvisited.filter fun t => t.name != state).find?
              (fun t => t.name == v) = some u → states.find? (fun t => t.name == v) = some u := by
            intro v u hu
            have hne : v ≠ state := by
              rintro rfl
              have hname := List.find?_some hu
              have hother := (List.mem_filter.mp (List.mem_of_find?_eq_some hu)).2
              simp_all
            rw [find?_filter_ne hne] at hu
            exact hfind v u hu
          obtain ⟨v, hv, hpath⟩ := ih hfind' h
          rcases List.mem_append.mp hv with hv | hv
          · -- a source of the state is one step further on the path
            exact ⟨state, List.mem_cons_self, .head (source_iff.mpr ⟨t, hfind _ t ht, hv⟩) hpath⟩
          · exact ⟨v, List.mem_cons_of_mem _ hv, hpath⟩

/-- **The ancestors are the states to which a path of sources leads.** -/
theorem mem_ancestors_iff :
    x ∈ ancestors states frontier ↔ ∃ v ∈ frontier, Relation.ReflTransGen (Source states) v x := by
  refine ⟨path_of_mem_ancestorsWithin fun _ _ h => h, ?_⟩
  rintro ⟨v, hv, hpath⟩
  have hclosed : Closed states frontier (ancestors states frontier) := closed_ancestors
  exact hclosed.mem_of_path hpath (hclosed.frontier_subset hv)

/-- A path that is not empty leads to the ancestors of the sources. -/
theorem mem_ancestors_sources_iff {t : StateTemplate}
    (ht : states.find? (fun t => t.name == v) = some t) :
    x ∈ ancestors states t.sources ↔ Relation.TransGen (Source states) v x := by
  rw [mem_ancestors_iff, Relation.TransGen.head'_iff]
  refine exists_congr fun w => and_congr_left' ?_
  rw [source_iff, ht]
  simp

/-! ### Which states can follow -/

/-- A state is declared and comes after nothing. -/
def Opens (states : List StateTemplate) (v : String) : Prop :=
  ∃ t ∈ states, t.name = v ∧ t.sources = []

/-- The test whether a state can open its timeline says what it ought to, if states have different
names. -/
theorem isOpening_iff (hnames : (states.map (·.name)).Nodup) :
    isOpening states v = true ↔ Opens states v := by
  have hopens : Opens states v ↔
      ∃ t, states.find? (fun t => t.name == v) = some t ∧ t.sources = [] := by
    simp only [find?_eq_some_iff hnames, Opens, and_assoc]
  rw [hopens, isOpening]
  cases states.find? (fun t => t.name == v) <;> simp

/-- A state is rooted if a path of sources leads from it to one that can open its timeline; the path
may be empty. -/
theorem isRooted_iff (hnames : (states.map (·.name)).Nodup) {t : StateTemplate} (ht : t ∈ states) :
    isRooted states t = true ↔
      ∃ v, Relation.ReflTransGen (Source states) t.name v ∧ Opens states v := by
  have hfind := (find?_eq_some_iff hnames).mpr ⟨ht, rfl⟩
  rw [isRooted, Bool.or_eq_true, List.any_eq_true]
  constructor
  · rintro (hempty | ⟨v, hv, hopening⟩)
    · exact ⟨_, .refl, t, ht, rfl, List.isEmpty_iff.mp hempty⟩
    · -- an opening state among the ancestors ends a path
      exact ⟨v, ((mem_ancestors_sources_iff hfind).mp hv).to_reflTransGen,
        (isOpening_iff hnames).mp hopening⟩
  · rintro ⟨v, hpath, hopens⟩
    rcases Relation.reflTransGen_iff_eq_or_transGen.mp hpath with rfl | hpath
    · -- the path is empty, and the state itself comes after nothing
      obtain ⟨u, hu, hname, hempty⟩ := hopens
      obtain rfl := List.inj_on_of_nodup_map hnames hu ht hname
      exact .inl (List.isEmpty_iff.mpr hempty)
    · exact .inr ⟨v, (mem_ancestors_sources_iff hfind).mpr hpath, (isOpening_iff hnames).mpr hopens⟩

/-- **A state can follow another one, or open its timeline, just in case a path of sources leads
from it to a state that comes after nothing, or to the other one.** -/
theorem canFollow_iff (hnames : (states.map (·.name)).Nodup) {previous : Option String} :
    canFollow states v previous = true ↔ (∃ t ∈ states, t.name = v) ∧
      ((∃ w, Relation.ReflTransGen (Source states) v w ∧ Opens states w) ∨
        ∃ p, previous = some p ∧ Relation.TransGen (Source states) v p) := by
  unfold canFollow
  rw [Bool.or_eq_true, List.any_eq_true]
  constructor
  · -- a rooted state, or the previous state among the ancestors
    rintro (⟨t, ht, h⟩ | h)
    · obtain ⟨hname, hrooted⟩ := Bool.and_eq_true_iff.mp h
      obtain rfl := eq_of_beq hname
      exact ⟨⟨t, ht, rfl⟩, .inl ((isRooted_iff hnames ht).mp hrooted)⟩
    · split at h
      · next p t ht =>
        have hmem := List.mem_reverse.mp (List.mem_of_find?_eq_some ht)
        have hname : t.name = v := by simpa using List.find?_some ht
        -- with unique names the first template of a name is the last one, too
        have hfind := (find?_eq_some_iff hnames).mpr ⟨hmem, hname⟩
        exact ⟨⟨t, hmem, hname⟩, .inr ⟨p, rfl,
          (mem_ancestors_sources_iff hfind).mp (List.contains_iff_mem.mp h)⟩⟩
      · exact absurd h (by simp)
  · rintro ⟨⟨t, ht, rfl⟩, hroot | ⟨p, rfl, hpath⟩⟩
    · exact .inl ⟨t, ht, Bool.and_eq_true_iff.mpr
        ⟨beq_self_eq_true _, (isRooted_iff hnames ht).mpr hroot⟩⟩
    · have hfind := (find?_eq_some_iff hnames).mpr ⟨ht, rfl⟩
      refine .inr ?_
      rw [find?_reverse_eq hnames hfind]
      exact List.contains_iff_mem.mpr ((mem_ancestors_sources_iff hfind).mpr hpath)

/-! ### Working off a list -/

/-- The states that are still to be visited, in any order and possibly several times, and those that
were. -/
structure Worklist where
  frontier : Multiset String
  seen : Finset String

namespace Worklist

variable {work work' : Worklist}

/-- A state is on the list or was on it. -/
def Knows (work : Worklist) (v : String) : Prop := v ∈ work.seen ∨ v ∈ work.frontier

/-- Takes any state from the list: it is passed over if it was seen, and otherwise visited, which
puts its sources on the list. -/
inductive Step (states : List StateTemplate) : Worklist → Worklist → Prop
  | pass {v : String} {rest : Multiset String} {seen : Finset String} (hseen : v ∈ seen) :
    Step states ⟨v ::ₘ rest, seen⟩ ⟨rest, seen⟩
  | visit {v : String} {rest : Multiset String} {seen : Finset String} (hnew : v ∉ seen) :
    Step states ⟨v ::ₘ rest, seen⟩ ⟨sourcesOf states v + rest, insert v seen⟩

/-- How much there is left to do: the templates to be visited, and the length of the list. -/
def measure (states : List StateTemplate) (work : Worklist) : Nat × Nat :=
  ((states.filter fun t => t.name ∉ work.seen).length, work.frontier.card)

/-- Every step of the worklist takes a state that had not been seen, or makes the list of those to
look at shorter. -/
theorem Step.measure_lt (h : Step states work work') :
    Prod.Lex (· < ·) (· < ·) (work'.measure states) (work.measure states) := by
  cases h with
  -- a state that was seen leaves the worklist, and no template with it
  | pass hseen => exact .right _ (by simp)
  | @visit v rest seen hnew =>
    by_cases hdeclared : ∃ t ∈ states, t.name = v
    · -- one template less is to be visited
      obtain ⟨t, ht, rfl⟩ := hdeclared
      refine .left _ _ ?_
      have hfilter : (states.filter fun u => u.name ∉ insert t.name seen) =
          (states.filter fun u => u.name ∉ seen).filter fun u => u.name ≠ t.name := by
        rw [List.filter_filter]
        refine List.filter_congr fun u _ => ?_
        simp [Finset.mem_insert, not_or]
      rw [hfilter]
      exact List.length_filter_lt_length_iff_exists.mpr
        ⟨t, List.mem_filter.mpr ⟨ht, decide_eq_true hnew⟩, by simp⟩
    · -- nothing is known of the state, and the list gets shorter
      have hnone : states.find? (fun t => t.name == v) = none := by
        simpa using fun t ht hname => hdeclared ⟨t, ht, hname⟩
      have hfilter : (states.filter fun u => u.name ∉ insert v seen) =
          states.filter fun u => u.name ∉ seen := by
        refine List.filter_congr fun u hu => ?_
        have hne : u.name ≠ v := fun hname => hdeclared ⟨u, hu, hname⟩
        simp [Finset.mem_insert, hne]
      rw [measure, measure, hfilter, sourcesOf, hnone]
      exact .right _ (by simp)

/-- **A worklist comes to an end**, in whatever order it is worked off. -/
theorem wellFounded_step (states : List StateTemplate) :
    WellFounded fun work' work => Step states work work' :=
  Subrelation.wf Step.measure_lt
    (InvImage.wf (measure states) (WellFounded.prod_lex Nat.lt_wfRel.wf Nat.lt_wfRel.wf))

/-- As long as there are states on the list it goes on. -/
theorem exists_step (h : work.frontier ≠ 0) : ∃ work', Step states work work' := by
  obtain ⟨frontier, seen⟩ := work
  obtain ⟨v, hv⟩ := Multiset.exists_mem_of_ne_zero h
  obtain ⟨rest, rfl⟩ := Multiset.exists_cons_of_mem hv
  by_cases hseen : v ∈ seen
  · exact ⟨_, .pass hseen⟩
  · exact ⟨_, .visit hseen⟩

/-- What is worked off from `start`: all of it is known, so are the sources of what was seen, and a
path leads to everything that is known. -/
structure Sweeps (states : List StateTemplate) (start : List String) (work : Worklist) : Prop where
  begun : ∀ v ∈ start, work.Knows v
  sources : ∀ v ∈ work.seen, ∀ u, Source states v u → work.Knows u
  path : ∀ v, work.Knows v → ∃ u ∈ start, Relation.ReflTransGen (Source states) u v

variable {start : List String}

/-- At first nothing has been seen, and all that is to be looked at is in the list. -/
theorem Sweeps.init (states : List StateTemplate) (start : List String) :
    Sweeps states start ⟨start, ∅⟩ :=
  ⟨fun _ hv => .inr hv, fun _ hv => absurd hv (Finset.notMem_empty _), fun v hv =>
    ⟨v, hv.resolve_left (Finset.notMem_empty v), .refl⟩⟩

/-- One step of the worklist keeps what is true of it: what has been seen is reached by paths, and
what is missing can be reached from the list. -/
theorem Sweeps.step (h : Sweeps states start work) (hstep : Step states work work') :
    Sweeps states start work' := by
  cases hstep with
  | @pass v rest seen hseen =>
    -- a name that was seen before is known without the work list
    have hknows : ∀ u, Knows ⟨v ::ₘ rest, seen⟩ u ↔ Knows ⟨rest, seen⟩ u := fun u => by
      simp only [Knows, Multiset.mem_cons]
      refine ⟨?_, Or.imp_right .inr⟩
      rintro (hu | rfl | hu)
      · exact .inl hu
      · exact .inl hseen
      · exact .inr hu
    exact ⟨fun u hu => (hknows u).mp (h.begun u hu),
      fun u hu x hx => (hknows x).mp (h.sources u hu x hx),
      fun u hu => h.path u ((hknows u).mpr hu)⟩
  | @visit v rest seen hnew =>
    -- a new name makes its sources known, and no other names
    have hknows : ∀ u, Knows ⟨sourcesOf states v + rest, insert v seen⟩ u ↔
        Knows ⟨v ::ₘ rest, seen⟩ u ∨ Source states v u := fun u => by
      simp only [Knows, Source, Finset.mem_insert, Multiset.mem_add, Multiset.mem_cons,
        Multiset.mem_coe]
      tauto
    refine ⟨fun u hu => (hknows u).mpr (.inl (h.begun u hu)), fun u hu x hx => ?_, fun u hu => ?_⟩
    · -- the state that is visited has its sources on the worklist now, the others had theirs before
      rcases Finset.mem_insert.mp hu with rfl | hu
      · exact (hknows x).mpr (.inr hx)
      · exact (hknows x).mpr (.inl (h.sources u hu x hx))
    · rcases (hknows u).mp hu with hu | hsource
      · exact h.path u hu
      · -- a source of the new state is reached by one step more
        obtain ⟨w, hw, hpath⟩ := h.path v (.inr (Multiset.mem_cons_self v rest))
        exact ⟨w, hw, hpath.tail hsource⟩

theorem Sweeps.steps (h : Sweeps states start work)
    (hsteps : Relation.ReflTransGen (Step states) work work') : Sweeps states start work' := by
  induction hsteps with
  | refl => exact h
  | tail _ hstep ih => exact ih.step hstep

/-- **When a worklist is empty, the ancestors have been seen**, and nothing else. The order in which
states are taken from the worklist is left open, so that a stack, a queue or any other discipline
ends with the same set. -/
theorem mem_seen_iff {seen : Finset String}
    (h : Relation.ReflTransGen (Step states) ⟨start, ∅⟩ ⟨0, seen⟩) :
    x ∈ seen ↔ x ∈ ancestors states start := by
  have hsweeps := (Sweeps.init states start).steps h
  have hseen : ∀ v, Knows ⟨0, seen⟩ v → v ∈ seen := fun v hv =>
    hv.resolve_right (Multiset.notMem_zero v)
  rw [mem_ancestors_iff]
  -- everything seen was reached by a path; conversely a path is followed one source at a time, and
  -- with the worklist empty every source that is known is seen
  refine ⟨fun hx => hsweeps.path x (.inl hx), ?_⟩
  rintro ⟨v, hv, hpath⟩
  induction hpath with
  | refl => exact hseen v (hsweeps.begun v hv)
  | tail _ hsource ih => exact hseen _ (hsweeps.sources _ ih _ hsource)

/-- A worklist can be worked off. -/
theorem exists_steps (states : List StateTemplate) (work : Worklist) :
    ∃ seen, Relation.ReflTransGen (Step states) work ⟨0, seen⟩ := by
  induction work using (wellFounded_step states).induction with
  | _ work ih =>
    by_cases hempty : work.frontier = 0
    · exact ⟨work.seen, hempty ▸ .refl⟩
    · obtain ⟨work', hstep⟩ : ∃ work', Step states work work' := exists_step hempty
      obtain ⟨seen, hsteps⟩ := ih work' hstep
      exact ⟨seen, .head hstep hsteps⟩

end Worklist

/-! ### Rows of tokens -/

/-- Each planned token of a row is of a declared state and comes right after its sources. -/
def Chained (states : List StateTemplate) (row : List Token) : Prop :=
  ∀ (i : Nat) x, row[i]? = some x → x.origin = .planned → ∃ t ∈ states, t.name = x.state ∧
    ∀ v ∈ t.sources, ∃ j y, i = j + 1 ∧ row[j]? = some y ∧ y.state = v

/-- The state at a place of a row. -/
def stateAt (row : List Token) (i : Nat) : String := (row[i]?.map (·.state)).getD ""

theorem stateAt_eq {row : List Token} {i : Nat} {x : Token} (h : row[i]? = some x) :
    stateAt row i = x.state := by rw [stateAt, h]; rfl

/-- **In a chained row a token can follow every one before it that planned tokens separate it
from**, and open the row if there are only planned tokens before it. -/
theorem Chained.canFollow (hnames : (states.map (·.name)).Nodup) {row : List Token}
    (h : Chained states row) (previous? : Option Nat) {i : Nat} {x : Token}
    (hx : row[i]? = some x) (hprevious : ∀ j, previous? = some j → j < i)
    (hplanned : ∀ k z, k ≤ i → (∀ j, previous? = some j → j < k) → row[k]? = some z →
      z.origin = .planned) :
    canFollow states x.state (previous?.map (stateAt row)) := by
  rw [← stateAt_eq hx]
  refine canFollow_of_row hnames (fun k hk hafter => ?_) hprevious
  have hlt : k < row.length := hk.trans_lt (List.getElem?_eq_some_iff.mp hx).1
  have hz : row[k]? = some row[k] := List.getElem?_eq_getElem hlt
  -- the token just before has a source of this state, and that token is the one the chain names
  obtain ⟨t, ht, hname, hsources⟩ := h k _ hz (hplanned k _ hk hafter hz)
  rw [stateAt_eq hz]
  refine ⟨t, (find?_eq_some_iff hnames).mpr ⟨ht, hname⟩, fun v hv => ?_⟩
  obtain ⟨j, y, rfl, hy, rfl⟩ := hsources v hv
  exact ⟨j, rfl, stateAt_eq hy⟩

/-- What stands at a place of a list stands at that place or behind it in a longer one. -/
theorem exists_place_of_sublist {α : Type} {as bs : List α} (h : as.Sublist bs) {i : Nat} {a : α}
    (ha : as[i]? = some a) : ∃ j, i ≤ j ∧ bs[j]? = some a := by
  obtain ⟨f, hf⟩ := List.sublist_iff_exists_orderEmbedding_getElem?_eq.mp h
  exact ⟨f i, f.strictMono.le_apply, (hf i).symm.trans ha⟩

/-- **A place that is refused for the sake of the chain leads to no chained row.** If a timeline
takes tokens at a place but none of a state, then no chained row that begins with the facts has a
token of that state behind the tokens that stand before the place. -/
theorem not_chained_of_refused {c : Chronicle} {id : TimelineId} {host : Timeline} {p : Nat}
    {state : String} (hnames : (host.states.map (·.name)).Nodup)
    (hhost : c.timeline id = .ok host) (hinsertable : c.isInsertable id p = .ok true)
    (hrefused : c.admitsState id state p = .ok false) {row current : List Token}
    (hcurrent : (host.sequence.take p).mapM c.token = .ok current)
    (hfacts : ∀ k z, host.facts ≤ k → row[k]? = some z → z.origin = .planned) {i : Nat} {x : Token}
    (hx : row[i]? = some x) (hstate : x.state = state)
    (hsub : (current.map (·.state)).Sublist ((row.take i).map (·.state))) :
    ¬ Chained host.states row := by
  intro hchained
  obtain ⟨host', hhost', htakes⟩ := Chronicle.isInsertable_eq_ok hinsertable
  obtain rfl := Chronicle.timeline_inj hhost hhost'
  have htakes := htakes.mp rfl
  obtain ⟨host', hhost', -, hadmitted⟩ := Chronicle.admitsState_eq_ok hrefused
  obtain rfl := Chronicle.timeline_inj hhost hhost'
  obtain ⟨previous, hprevious, hiff⟩ := hadmitted htakes
  -- the chain would let the state follow what is in front of it, and it was refused
  refine Bool.false_ne_true (hiff.mpr ?_)
  subst hstate
  have hfacts_le := htakes.facts_le
  cases p with
  | zero =>
    -- there are no facts, and nothing but planned tokens before the new one
    obtain rfl := Except.ok.inj hprevious
    exact hchained.canFollow hnames none hx (by simp) fun k z _ _ hz =>
      hfacts k z (by omega) hz
  | succ q =>
    -- the token before the place stands in the row as well, behind the facts
    obtain ⟨u, hu, rfl⟩ := Chronicle.stateBefore?_succ htakes.le_length hcurrent hprevious
    obtain ⟨j, hj, hstate⟩ := exists_place_of_sublist hsub (i := q) (a := u.state) (by simp [hu])
    rw [List.getElem?_map, List.getElem?_take] at hstate
    obtain ⟨y, hy, hstate⟩ := Option.map_eq_some_iff.mp hstate
    obtain ⟨hlt, hy⟩ := Option.ite_none_right_eq_some.mp hy
    have hfollows := hchained.canFollow hnames (some j) hx
      (by rintro _ ⟨rfl⟩; exact hlt) fun k z _ hafter hz =>
        hfacts k z (by have := hafter j rfl; omega) hz
    rwa [Option.map_some, stateAt_eq hy, hstate] at hfollows

/-- **Which states can follow is decided exactly, and what is pruned is no loss**, if the states of
a timeline have different names. A worklist of sources comes to an end in whatever order it is
worked off, and then the ancestors have been seen. A state can follow `previous` just in case it is
declared and a path of sources leads from it to a state that comes after nothing, or in at least one
step to `previous`. In a row of tokens in which each planned one comes right after its sources,
every planned token can follow those that only planned tokens separate it from, and can open the
timeline if only planned tokens come before it. And if a timeline takes tokens at a place but none
of a state, then no such row has a token of that state behind the tokens before that place. -/
theorem canFollow_exact (hnames : (states.map (·.name)).Nodup) :
    (WellFounded fun work' work => Worklist.Step states work work') ∧
    (∀ t ∈ states,
      (∃ seen, Relation.ReflTransGen (Worklist.Step states) ⟨t.sources, ∅⟩ ⟨0, seen⟩) ∧
      ∀ seen, Relation.ReflTransGen (Worklist.Step states) ⟨t.sources, ∅⟩ ⟨0, seen⟩ →
        ∀ x, x ∈ seen ↔ x ∈ ancestors states t.sources) ∧
    (∀ v previous, canFollow states v previous = true ↔
      (∃ t ∈ states, t.name = v) ∧
        ((∃ w, Relation.ReflTransGen (Source states) v w ∧ Opens states w) ∨
          ∃ p, previous = some p ∧ Relation.TransGen (Source states) v p)) ∧
    (∀ row, Chained states row → ∀ (i : Nat) x, row[i]? = some x → x.origin = .planned →
      (∀ (j : Nat) y, j < i → row[j]? = some y →
        (∀ (k : Nat) z, j < k → k < i → row[k]? = some z → z.origin = .planned) →
          canFollow states x.state (some y.state)) ∧
      ((∀ (k : Nat) z, k < i → row[k]? = some z → z.origin = .planned) →
        canFollow states x.state none)) ∧
    ∀ (c : Chronicle) id host p state, c.timeline id = .ok host → host.states = states →
      c.isInsertable id p = .ok true → c.admitsState id state p = .ok false →
      ∀ row current, (host.sequence.take p).mapM c.token = .ok current →
        (∀ (k : Nat) z, host.facts ≤ k → row[k]? = some z → z.origin = .planned) →
        ∀ (i : Nat) x, row[i]? = some x → x.state = state →
          (current.map (·.state)).Sublist ((row.take i).map (·.state)) →
            ¬ Chained states row := by
  -- the five parts: termination, the result of the worklist, the test itself, rows, and what is
  -- pruned
  refine ⟨Worklist.wellFounded_step states, fun t _ => ⟨Worklist.exists_steps states _,
    fun seen h x => Worklist.mem_seen_iff h⟩, fun v previous => canFollow_iff hnames,
    fun row h i x hx hplanned => ⟨fun j y hj hy hbetween => ?_, fun hbefore => ?_⟩, ?_⟩
  · have hfollows := h.canFollow hnames (some j) hx
      (by rintro _ ⟨rfl⟩; exact hj) fun k z hk hafter hz => by
        rcases hk.lt_or_eq with hk | rfl
        · exact hbetween k z (hafter j rfl) hk hz
        · exact Option.some.inj (hx.symm.trans hz) ▸ hplanned
    rwa [Option.map_some, stateAt_eq hy] at hfollows
  · refine h.canFollow hnames none hx (by simp) fun k z hk _ hz => ?_
    rcases hk.lt_or_eq with hk | rfl
    · exact hbefore k z hk hz
    · exact Option.some.inj (hx.symm.trans hz) ▸ hplanned
  · rintro c id host p state hhost rfl hinsertable hrefused row current hcurrent hfacts i x hx
      hstate hsub
    exact not_chained_of_refused hnames hhost hinsertable hrefused hcurrent hfacts hx hstate hsub

/-- A worker who can drive only after parking, and park only after driving. -/
def workerStates : List StateTemplate := [
  { name := "Idle" },
  { name := "Work", conditions := [.follows "Idle"] },
  { name := "Drive", conditions := [.follows "Park"] },
  { name := "Park", conditions := [.follows "Drive"] }]

/-- A worker who is idle at first never drives. `Drive` and `Park` lead to one another only, so that
each of them is its own ancestor and neither comes after `Idle`. -/
theorem canFollow_exact_worker : (workerStates.map (·.name)).Nodup ∧
    Relation.TransGen (Source workerStates) "Drive" "Drive" ∧
    ¬ Relation.TransGen (Source workerStates) "Drive" "Idle" ∧
    ∀ row x (i : Nat), row[0]?.map Token.state = some "Idle" →
      (∀ (k : Nat) z, 1 ≤ k → row[k]? = some z → z.origin = .planned) →
      row[i + 1]? = some x → x.state = "Drive" → ¬ Chained workerStates row := by
  have hnames : (workerStates.map (·.name)).Nodup := by decide
  have hdeclared : ∃ t ∈ workerStates, t.name = "Drive" := by decide
  obtain ⟨-, -, hiff, -, hrefused⟩ := canFollow_exact hnames
  refine ⟨hnames, ?_, fun hpath => ?_, fun row x i hidle hplanned hx hdrive => ?_⟩
  · obtain ⟨-, hroot | ⟨p, hp, hpath⟩⟩ :=
      (hiff "Drive" (some "Drive")).mp (by decide)
    · -- a state that could open the timeline could follow nothing, which is tested
      exact absurd ((hiff "Drive" none).mpr ⟨hdeclared, .inl hroot⟩) (by decide)
    · obtain rfl := Option.some.inj hp
      exact hpath
  · exact absurd ((hiff "Drive" (some "Idle")).mpr ⟨hdeclared, .inr ⟨_, rfl, hpath⟩⟩) (by decide)
  · -- the timeline with the first fact takes tokens behind it, but none that drives
    let idle : Token := ⟨⟨0⟩, "Idle", ⟨1⟩, ⟨2⟩, .fact, [], false⟩
    let host : Timeline := ⟨"worker", some "Worker", workerStates, false, [⟨0⟩], 1, false⟩
    refine hrefused ⟨#[host], #[idle], #[], #[]⟩ ⟨0⟩ host 1 "Drive" rfl rfl rfl (by rfl) row [idle]
      rfl hplanned (i + 1) x hx hdrive (List.singleton_sublist.mpr ?_)
    cases row with
    | nil => exact absurd hidle (by simp)
    | cons y row => simp_all [idle]

end Reachability

end TemporalPlanning
