import TemporalPlanning.Proofs.Model.Load
import TemporalPlanning.Proofs.Plan.Support
import TemporalPlanning.Proofs.Plan.Verify
import TemporalPlanning.Proofs.Reservation.Capacity

/-!
# Solutions

A solution of a model is a plan over the objects that the model names: its entries begin with the
facts, verification has nothing to say about it, and all further tokens are supported
(`Plan.Solves`).

The search does not look for all of them. What verification counts is what goes on at an instant,
and there a token that starts where it stops takes nothing. The search books the units of such a
token like any others, before it knows when the token stops. So a solution is found only if it is
plain (`Plan.Plain`): no state repeats a condition on its predecessor, no token asks for more units
than there are or supports itself, and a token that lasts for an instant, but was free to last
longer, leaves room for what is in use across the instant.

One more thing is asked that the search does not mean to ask. Two reservations are held to overlap
also if one of them is an instant strictly within the other, although they have no instant in
common, and a pair that is held to overlap must not exceed the capacity (`Plan.PairsFit`).
-/

namespace TemporalPlanning

/-- An entry begins with some facts: they follow each other without gap from 0 on. -/
def PlanTimeline.BeginsWith (e : PlanTimeline) (facts : List GroundRef) : Prop :=
  ∀ (k : Nat) f, facts[k]? = some f → ∃ t, e.tokens[k]? = some t ∧ t.state = f.state ∧
    (k = 0 → t.start = 0) ∧ ∀ (j : Nat) u, e.tokens[j]? = some u → k = j + 1 → u.stop = t.start

/-- What stands at a place of a timeline is a fact or of a state that the timeline declares. -/
def Model.Knows (m : Model) (name : String) (k : Nat) (state : String) : Prop :=
  k < m.factPrefix name ∨
    ∃ d, m.timelineTemplate? name = some d ∧ (d.template? state).isSome

namespace Plan

variable (m : Model) (p : Plan)

/-- A token stands at a place of the entry of a name. -/
def At (name : String) (k : Nat) (t : PlanToken) : Prop :=
  ∃ e ∈ p.timelines, e.name = name ∧ e.tokens[k]? = some t

/-- A token of a declared state, behind the facts of its timeline. -/
def Planned (name : String) (k : Nat) (t : PlanToken) (template : StateTemplate) : Prop :=
  p.At name k t ∧ m.factPrefix name ≤ k ∧
    ∃ d, m.timelineTemplate? name = some d ∧ d.template? t.state = some template

/-- A plan for a model over its own timelines and resources. -/
@[mk_iff]
structure Solves (horizon : Option Int) : Prop where
  /-- Every timeline of the model has one entry. -/
  entries : (p.timelines.map (·.name)).Perm (m.timelines.map (·.name))
  ordered : ∀ e ∈ p.timelines, e.tokens.Pairwise fun t u => t.stop ≤ u.start
  facts : ∀ (i : Nat) d, m.timelines[i]? = some d → ∀ e ∈ p.timelines, e.name = d.name →
    e.BeginsWith (m.factsOn i)
  within : p.Within horizon
  verified : p.violations m = []
  /-- Only resources of the model are bound. -/
  declared : ∀ use ∈ p.resourceUses m, (m.resourceIndex? use.1).isSome
  /-- Behind the facts, every condition has a binding that supports it. -/
  supported : ∀ e ∈ p.timelines, ∀ (k : Nat) t, e.tokens[k]? = some t → m.factPrefix e.name ≤ k →
    ∀ d, m.timelineTemplate? e.name = some d → ∀ template, d.template? t.state = some template →
      ∀ (i : Nat) condition, template.conditions[i]? = some condition →
        ∃ name, t.bindings[i]? = some (.named name) ∧ p.Supports m e k t name condition

/-- The usages of a plan with their places: timeline, token, condition. -/
def placedUses : List ((String × Nat × Nat) × (String × Usage)) :=
  p.timelines.flatMap fun e =>
    match m.timelineTemplate? e.name with
    | none => []
    | some d => e.tokens.zipIdx.flatMap fun (t, k) =>
      match d.template? t.state with
      | none => []
      | some state => (state.conditions.zip t.bindings).zipIdx.filterMap fun (pair, i) =>
          (t.useOf pair).map fun use => ((e.name, k, i), use)

/-- The usages of a resource by tokens behind the facts of their timelines. -/
def plannedUsages (resource : String) : List Usage :=
  ((p.placedUses m).filter fun (place, use) =>
    m.factPrefix place.1 ≤ place.2.1 && use.1 == resource).map (·.2.2)

/-- The object `name` supports a condition of a token also by itself: a resource has the units that
are asked for, whatever others take, and the token of a timeline is another one than that at place
`k` of the timeline `own`. -/
def SupportsBeside (own : String) (k : Nat) (t : PlanToken) (name : String) : Condition → Prop
  | .uses _ amount => ∀ r capacity, m.resourceTemplate? name = some r →
      r.capacity = some capacity → amount ≤ capacity
  | .follows _ => True
  | .metBy _ state => ∃ j u, p.At name j u ∧ (name = own → j ≠ k) ∧ m.Knows name j state ∧
      u.state = state ∧ u.stop = t.start
  | .during _ state => ∃ j u, p.At name j u ∧ (name = own → j ≠ k) ∧ m.Knows name j state ∧
      u.state = state ∧ u.start ≤ t.start ∧ t.stop ≤ u.stop

/-- What the search takes for granted of a solution. -/
structure Plain : Prop where
  /-- No state repeats a condition on its predecessor. -/
  once : ∀ name k t template, p.Planned m name k t template → ∀ (i j : Nat) v w,
    template.conditions[i]? = some (.follows v) → template.conditions[j]? = some (.follows w) →
      i = j
  beside : ∀ name k t template, p.Planned m name k t template → ∀ (i : Nat) condition bound,
    template.conditions[i]? = some condition → t.bindings[i]? = some (.named bound) →
      p.SupportsBeside m name k t bound condition
  /-- What takes units for an instant, though its state may last longer, takes no more than is left
  by what is in use across the instant. -/
  spared : ∀ name k t template, p.Planned m name k t template → t.stop ≤ t.start →
    template.duration.max ≠ some 0 → ∀ (i : Nat) target amount bound,
      template.conditions[i]? = some (.uses target amount) → t.bindings[i]? = some (.named bound) →
        ∀ r capacity, m.resourceTemplate? bound = some r → r.capacity = some capacity →
          amount + Usage.across (p.plannedUsages m bound) t.start ≤ capacity

/-- What takes units for an instant takes no more than are left by any one usage around it. -/
def PairsFit : Prop :=
  ∀ resource r capacity, m.resourceTemplate? resource = some r → r.capacity = some capacity →
    ∀ u ∈ p.plannedUsages m resource, ∀ v ∈ p.plannedUsages m resource, u.stop ≤ u.start →
      v.start < u.start → u.start < v.stop → u.amount + v.amount ≤ capacity

end Plan

namespace Plan

variable {m : Model} {p : Plan} {horizon : Option Int} {name : String} {i j k : Nat}
  {t u : PlanToken} {d : TimelineDef}

/-! ### Places of tokens -/

/-- The entries of a solution have distinct names, since the timelines of a model have. -/
theorem Solves.nodup_names (h : p.Solves m horizon) (hm : m.WellFormed) :
    (p.timelines.map (·.name)).Nodup := by
  refine h.entries.nodup_iff.mpr ?_
  rw [List.Nodup, List.pairwise_iff_getElem]
  intro i j hi hj hlt heq
  rw [List.length_map] at hi hj
  rw [List.getElem_map, List.getElem_map] at heq
  have := hm.timeline_inj (List.getElem?_eq_getElem hi) (List.getElem?_eq_getElem hj) heq
  omega

/-- Entries of one name are one entry. -/
theorem Solves.entry_inj (h : p.Solves m horizon) (hm : m.WellFormed) {e f : PlanTimeline}
    (he : e ∈ p.timelines) (hf : f ∈ p.timelines) (hname : e.name = f.name) : e = f :=
  List.inj_on_of_nodup_map (h.nodup_names hm) he hf hname

/-- At a place of a solution there is one token. -/
theorem Solves.at_inj (h : p.Solves m horizon) (hm : m.WellFormed) (ht : p.At name k t)
    (hu : p.At name k u) : t = u := by
  obtain ⟨e, he, rfl, ht⟩ := ht
  obtain ⟨f, hf, hname, hu⟩ := hu
  obtain rfl := h.entry_inj hm he hf hname.symm
  exact Option.some.inj (ht.symm.trans hu)

/-- Every timeline of the model has its entry. -/
theorem Solves.exists_entry (h : p.Solves m horizon) (hd : m.timelines[i]? = some d) :
    ∃ e ∈ p.timelines, e.name = d.name :=
  List.mem_map.mp (h.entries.mem_iff.mpr (List.mem_map_of_mem (List.mem_of_getElem? hd)))

/-- Tokens of an entry come one after the other. -/
theorem Solves.stop_le_start (h : p.Solves m horizon) (hm : m.WellFormed) (ht : p.At name j t)
    (hu : p.At name k u) (hlt : j < k) : t.stop ≤ u.start := by
  obtain ⟨e, he, rfl, ht⟩ := ht
  obtain ⟨f, hf, hname, hu⟩ := hu
  obtain rfl := h.entry_inj hm he hf hname.symm
  obtain ⟨hj, rfl⟩ := List.getElem?_eq_some_iff.mp ht
  obtain ⟨hk, rfl⟩ := List.getElem?_eq_some_iff.mp hu
  exact List.pairwise_iff_getElem.mp (h.ordered e he) j k hj hk hlt

/-- A token of a plan within the horizon starts and stops between 0 and the horizon. -/
theorem At.window (ht : p.At name k t) (h : p.Within horizon) :
    (0 ≤ t.start ∧ ∀ k, horizon = some k → t.start ≤ k) ∧
      0 ≤ t.stop ∧ ∀ k, horizon = some k → t.stop ≤ k := by
  obtain ⟨e, he, -, ht⟩ := ht
  have := h e he t (List.mem_of_getElem? ht)
  exact ⟨this _ (by simp), this _ (by simp)⟩

/-- A token follows the declaration of its timeline. -/
theorem Solves.obeys (h : p.Solves m horizon) (hm : m.WellFormed) (hd : m.timelines[i]? = some d)
    (ht : p.At d.name k t) : t.Obeys d := by
  obtain ⟨e, he, hname, ht⟩ := ht
  obtain ⟨d', hd', htokens, -⟩ := (violations_eq_nil_iff.mp h.verified).entries e he
  rw [hname, hm.timelineTemplate?_eq hd] at hd'
  obtain rfl := Option.some.inj hd'
  exact htokens t (List.mem_of_getElem? ht)

/-- A fact stands at its place. The number of the fact on its timeline is the number of its token in
the entry. -/
theorem Solves.exists_fact (h : p.Solves m horizon) (hm : m.WellFormed)
    (hd : m.timelines[i]? = some d) {f : GroundRef} (hf : (m.factsOn i)[k]? = some f) :
    ∃ t, p.At d.name k t ∧ t.state = f.state ∧ (k = 0 → t.start = 0) ∧
      ∀ j u, k = j + 1 → p.At d.name j u → u.stop = t.start := by
  obtain ⟨e, he, hname⟩ := h.exists_entry hd
  obtain ⟨t, ht, hstate, hfirst, hprevious⟩ := h.facts i d hd e he hname k f hf
  refine ⟨t, ⟨e, he, hname, ht⟩, hstate, hfirst, fun j u hj hu => ?_⟩
  obtain ⟨e', he', hname', hu⟩ := hu
  obtain rfl := h.entry_inj hm he he' (hname.trans hname'.symm)
  exact hprevious j u hu hj

/-- A planned token of a solution has a binding for each condition, and that supports it. -/
theorem Solves.exists_binding (h : p.Solves m horizon) {template : StateTemplate}
    (ht : p.Planned m name k t template) {condition : Condition}
    (hi : template.conditions[i]? = some condition) :
    ∃ e ∈ p.timelines, e.name = name ∧ e.tokens[k]? = some t ∧
      ∃ bound, t.bindings[i]? = some (.named bound) ∧ p.Supports m e k t bound condition := by
  obtain ⟨⟨e, he, rfl, hk⟩, hprefix, d, hd, htemplate⟩ := ht
  exact ⟨e, he, rfl, hk, h.supported e he k t hk hprefix d hd template htemplate i condition hi⟩

/-! ### Usages -/

/-- Numbering the elements of a list is of no consequence when the numbers are dropped. -/
theorem map_flatMap_zipIdx {α β γ : Type} {as : List α} {f : α × Nat → List β} {g : β → γ}
    {f' : α → List γ} (h : ∀ a n, (f (a, n)).map g = f' a) :
    (as.zipIdx.flatMap f).map g = as.flatMap f' := by
  rw [List.map_flatMap]
  conv_rhs => rw [← List.zipIdx_map_fst 0 as, List.flatMap_map]
  exact List.flatMap_congr fun a _ => h a.1 a.2

/-- Without their places, the placed uses are the uses of the plan. The places are added so that two
equal uses can be told apart when they are matched with reservations. -/
theorem map_snd_placedUses : (p.placedUses m).map (·.2) = p.resourceUses m := by
  rw [placedUses, resourceUses, List.map_flatMap]
  refine List.flatMap_congr fun e _ => ?_
  cases m.timelineTemplate? e.name with
  | none => rfl
  | some d =>
    -- without the places the two lists are made alike
    refine map_flatMap_zipIdx fun t k => ?_
    dsimp only
    cases d.template? t.state with
    | none => rfl
    | some state =>
      dsimp only
      rw [PlanToken.uses_eq_filterMap, List.map_filterMap]
      conv_rhs => rw [← List.zipIdx_map_fst 0 (state.conditions.zip t.bindings), List.filterMap_map]
      refine List.filterMap_congr fun a _ => ?_
      cases huse : t.useOf a.1 <;> simp [huse]

/-- A condition on a resource is a usage at its place. The place consists of the entry, the token in
it and the condition of the token. -/
theorem mem_placedUses (hd : m.timelineTemplate? name = some d) (ht : p.At name k t)
    {template : StateTemplate} (htemplate : d.template? t.state = some template)
    {target : ObjectRef} {amount : Nat} (hi : template.conditions[i]? = some (.uses target amount))
    {bound : String} (hbound : t.bindings[i]? = some (.named bound)) :
    ((name, k, i), (bound, ⟨t.start, t.stop, amount⟩)) ∈ p.placedUses m := by
  obtain ⟨e, he, rfl, ht⟩ := ht
  -- a use is listed under its entry, its token and the place of its condition
  refine List.mem_flatMap.mpr ⟨e, he, ?_⟩
  rw [hd]
  refine List.mem_flatMap.mpr ⟨(t, k), List.mk_mem_zipIdx_iff_getElem?.mpr ht, ?_⟩
  dsimp only
  rw [htemplate]
  refine List.mem_filterMap.mpr ⟨((.uses target amount, .named bound), i), ?_, rfl⟩
  refine List.mk_mem_zipIdx_iff_getElem?.mpr ?_
  rw [List.getElem?_zip_eq_some]
  exact ⟨hi, hbound⟩

/-- A token that binds a condition for units to a resource uses that many units of it from its start
to its stop. -/
theorem mem_resourceUses (hd : m.timelineTemplate? name = some d) (ht : p.At name k t)
    {template : StateTemplate} (htemplate : d.template? t.state = some template)
    {target : ObjectRef} {amount : Nat} (hi : template.conditions[i]? = some (.uses target amount))
    {bound : String} (hbound : t.bindings[i]? = some (.named bound)) :
    (bound, ⟨t.start, t.stop, amount⟩) ∈ p.resourceUses m := by
  rw [← map_snd_placedUses]
  exact List.mem_map_of_mem (mem_placedUses hd ht htemplate hi hbound)

/-- The planned usages of a resource are some of its usages. -/
theorem plannedUsages_sublist (resource : String) :
    (p.plannedUsages m resource).Sublist (p.usagesOf m resource) := by
  rw [usagesOf, ← map_snd_placedUses, List.filter_map, List.map_map]
  -- to be planned is one more test
  refine (List.monotone_filter_right _ fun use huse => ?_).map _
  exact (Bool.and_eq_true_iff.mp huse).2

/-- A resource is never overloaded. The verifier computes the peak once for each name, and no
instant needs more than the peak. -/
theorem Obeys.total_le (h : p.Obeys m) {r : ResourceDef} (hr : m.resourceTemplate? name = some r)
    {capacity : Nat} (hcapacity : r.capacity = some capacity) (instant : Int) :
    Usage.total (p.usagesOf m name) instant ≤ capacity := by
  cases husages : p.usagesOf m name with
  | nil => exact Nat.zero_le _
  -- a use of the name exists, so the verifier has looked at it
  | cons u rest =>
    obtain ⟨use, huse, -⟩ := List.mem_map.mp (husages ▸ List.mem_cons_self : u ∈ p.usagesOf m name)
    obtain ⟨hmem, hname⟩ := List.mem_filter.mp huse
    obtain rfl := eq_of_beq hname
    obtain ⟨r', hr', hpeak⟩ := h.resources use hmem
    obtain rfl := Option.some.inj (hr.symm.trans hr')
    rw [← husages]
    exact (Usage.total_le_peak _ _).trans (hpeak capacity hcapacity)

/-! ### Checking solutions -/

/-- What is said of all elements of a list with their places can be checked. -/
instance {α : Type} {as : List α} {P : Nat → α → Prop} [∀ i a, Decidable (P i a)] :
    Decidable (∀ (i : Nat) a, as[i]? = some a → P i a) :=
  decidable_of_iff (∀ x ∈ as.zipIdx, P x.2 x.1)
    ⟨fun h i a hi => h (a, i) (List.mk_mem_zipIdx_iff_getElem?.mpr hi),
      fun h x hx => h x.2 x.1 (List.mk_mem_zipIdx_iff_getElem?.mp hx)⟩

instance {α : Type} {o : Option α} {P : α → Prop} [DecidablePred P] :
    Decidable (∀ a, o = some a → P a) :=
  inferInstanceAs (Decidable (∀ a ∈ o, P a))

instance {o : Option ObjectRef} {P : String → Prop} [DecidablePred P] :
    Decidable (∃ name, o = some (.named name) ∧ P name) :=
  match o with
  | some (.named name) => decidable_of_iff (P name) (by simp)
  | some (.anyOf _) => .isFalse (by simp)
  | none => .isFalse (by simp)

instance (e : PlanTimeline) (facts : List GroundRef) : Decidable (e.BeginsWith facts) :=
  inferInstanceAs (Decidable (∀ (k : Nat) f, facts[k]? = some f → ∃ t ∈ e.tokens[k]?,
    t.state = f.state ∧ (k = 0 → t.start = 0) ∧
      ∀ (j : Nat) u, e.tokens[j]? = some u → k = j + 1 → u.stop = t.start))

instance (p : Plan) (horizon : Option Int) : Decidable (p.Within horizon) :=
  inferInstanceAs (Decidable (∀ e ∈ p.timelines, ∀ t ∈ e.tokens, ∀ d ∈ [t.start, t.stop],
    0 ≤ d ∧ ∀ k, horizon = some k → d ≤ k))

instance (m : Model) (p : Plan) (horizon : Option Int) : Decidable (p.Solves m horizon) :=
  decidable_of_iff _ (solves_iff m p horizon).symm

end Plan

end TemporalPlanning
