import TemporalPlanning.Plan.Wire
import TemporalPlanning.Proofs.Json.Decode
import TemporalPlanning.Search.Config

/-!
# What is written is read back

Problems, plans, configurations, outcomes, failures and violations are read back from what is
written for them, as documents and as texts (`wire_round_trip`). Numbers have to be in the range
that the written form has for them.

An outcome is written as its plan or as its failure, and nothing says which. Neither is taken for
the other: a plan is an object with timelines, which a failure has not, and a failure one with a
status (`Plan.decoder_ne_ok_of_failure`, `Failure.decoder_ne_ok_of_plan`).
-/

namespace TemporalPlanning

open Decoder Record

/-! ### Problems -/

namespace ObjectRef

theorem reads (o : ObjectRef) : Reads decoder o.toJson o := by
  cases o with
  | named name => exact reads_filled rfl ((reads_text name).map named)
  | anyOf className => exact reads_filled rfl ((reads_text className).map anyOf)

theorem shallow (room : Nat) (o : ObjectRef) : o.toJson.Shallow (room + 2) := by
  cases o <;>
  · exact Json.shallow_object (Nat.succ_pos _)
      (List.forall_mem_singleton.mpr (Json.shallow_text _ _))

end ObjectRef

namespace Condition

/-- Amounts have 32 bits. -/
def InRange : Condition → Prop
  | .uses _ amount => amount < UInt32.size
  | _ => True

theorem reads {c : Condition} (h : c.InRange) : Reads decoder c.toJson c := by
  cases c with
  | uses resource amount =>
    exact reads_filled rfl ((reads_pair resource.reads (reads_nat32 h)).map
      fun p => Condition.uses p.1 p.2)
  | follows state => exact reads_filled rfl ((reads_text state).map follows)
  | metBy timeline state =>
    exact reads_filled rfl ((reads_pair timeline.reads (reads_text state)).map
      fun p => Condition.metBy p.1 p.2)
  | during timeline state =>
    exact reads_filled rfl ((reads_pair timeline.reads (reads_text state)).map
      fun p => Condition.during p.1 p.2)

end Condition

namespace Duration

/-- Bounds have 64 bits. -/
def InRange (d : Duration) : Prop := IsInt64 d.min ∧ ∀ max, d.max = some max → IsInt64 max

theorem reads {d : Duration} (h : d.InRange) : Reads decoder d.toJson d :=
  (reads_pair (reads_int64 h.1) (reads_option fun max hmax =>
    ⟨reads_int64 (h.2 max hmax), by simp [Json.int]⟩)).map fun p => Duration.mk p.1 p.2

end Duration

namespace StateTemplate

/-- The numbers of a state are in range. -/
structure InRange (s : StateTemplate) : Prop where
  duration : s.duration.InRange
  conditions : ∀ c ∈ s.conditions, c.InRange

theorem reads {s : StateTemplate} (h : s.InRange) : Reads decoder s.toJson s :=
  reads_object (by decide)
    (.required (reads_text s.name) <|
      .defaulted (Duration.reads h.duration) <|
      .defaulted (reads_list fun c hc => Condition.reads (h.conditions c hc)) <|
      .done _) rfl

end StateTemplate

namespace ResourceSpec

/-- The capacity of a resource has 32 bits. -/
def InRange (r : ResourceSpec) : Prop := ∀ n, r.capacity = some n → n < UInt32.size

theorem reads {r : ResourceSpec} (h : r.InRange) : Reads decoder r.toJson r :=
  reads_object (by decide)
    (.required (reads_text r.className) <|
      .defaulted (reads_option fun name _ => ⟨reads_text name, by simp⟩) <|
      .defaulted (reads_option fun n hn => ⟨reads_nat32 (h n hn), by simp [Json.nat, Json.int]⟩) <|
      .done _) rfl

end ResourceSpec

namespace TimelineSpec

/-- The numbers of a timeline are in range. -/
def InRange (t : TimelineSpec) : Prop := ∀ s ∈ t.states, s.InRange

theorem reads {t : TimelineSpec} (h : t.InRange) : Reads decoder t.toJson t :=
  reads_object (by decide)
    (.required (reads_text t.className) <|
      .defaulted (reads_option fun name _ => ⟨reads_text name, by simp⟩) <|
      .defaulted (reads_list fun s hs => StateTemplate.reads (h s hs)) <|
      .done _) rfl

end TimelineSpec

theorem Statement.reads (s : Statement) : Reads decoder s.toJson s :=
  reads_object (by decide)
    (.required (reads_text s.timeline) <| .required (reads_text s.state) <| .done _) rfl

namespace Problem

/-- The numbers of a problem are in range. -/
structure InRange (p : Problem) : Prop where
  resources : ∀ r ∈ p.resources, r.InRange
  timelines : ∀ t ∈ p.timelines, t.InRange

theorem reads {p : Problem} (h : p.InRange) : Reads decoder p.toJson p := by
  -- open classes are written only if there are any
  have hopen : Fills [Field.defaulted "open_classes" (.list .text)
      fun openClasses (p : Problem) => { p with openClasses }]
      (if p.openClasses.isEmpty then [] else [("open_classes", .listOf .text p.openClasses)])
      { p with openClasses := [] } p := by
    obtain ⟨resources, timelines, facts, goals, openClasses⟩ := p
    cases openClasses with
    | nil => exact .leave rfl (.done _)
    | cons name names => exact .defaulted (reads_list fun s _ => reads_text s) (.done _)
  exact reads_object (by decide)
    (.defaulted (reads_list fun r hr => ResourceSpec.reads (h.resources r hr)) <|
      .defaulted (reads_list fun t ht => TimelineSpec.reads (h.timelines t ht)) <|
      .defaulted (reads_list fun f _ => f.reads) <|
      .defaulted (reads_list fun g _ => g.reads) hopen) rfl

end Problem

/-! ### Plans, failures and outcomes -/

namespace PlanToken

/-- The dates of a token have 64 bits. -/
def InRange (t : PlanToken) : Prop := IsInt64 t.start ∧ IsInt64 t.stop

theorem reads {t : PlanToken} (h : t.InRange) : Reads decoder t.toJson t :=
  reads_object (by decide)
    (.required (reads_text t.state) <|
      .required (reads_int64 h.1) <|
      .required (reads_int64 h.2) <|
      .required (reads_list fun o _ => o.reads) <|
      .done _) rfl

theorem shallow (room : Nat) {t : PlanToken} (h : t.InRange) : t.toJson.Shallow (room + 4) := by
  have hbindings : (Json.listOf ObjectRef.toJson t.bindings).Shallow (room + 3) :=
    Json.shallow_list (Nat.succ_pos _) (List.forall_mem_map.mpr fun o _ => o.shallow room)
  refine Json.shallow_object (Nat.succ_pos _) ?_
  simp only [List.forall_mem_cons, List.not_mem_nil, false_implies, implies_true, and_true]
  exact ⟨Json.shallow_text _ _, Json.shallow_int _ h.1, Json.shallow_int _ h.2, hbindings⟩

end PlanToken

namespace PlanTimeline

/-- The dates of a timeline are in range. -/
def InRange (t : PlanTimeline) : Prop := ∀ tok ∈ t.tokens, tok.InRange

theorem reads {t : PlanTimeline} (h : t.InRange) : Reads decoder t.toJson t :=
  reads_object (by decide)
    (.required (reads_text t.name) <|
      .required (reads_list fun tok htok => PlanToken.reads (h tok htok)) <|
      .done _) rfl

theorem shallow (room : Nat) {t : PlanTimeline} (h : t.InRange) :
    t.toJson.Shallow (room + 6) := by
  have htokens : (Json.listOf PlanToken.toJson t.tokens).Shallow (room + 5) :=
    Json.shallow_list (Nat.succ_pos _)
      (List.forall_mem_map.mpr fun tok htok => PlanToken.shallow room (h tok htok))
  refine Json.shallow_object (Nat.succ_pos _) ?_
  simp only [List.forall_mem_cons, List.not_mem_nil, false_implies, implies_true, and_true]
  exact ⟨Json.shallow_text _ _, htokens⟩

end PlanTimeline

namespace Plan

/-- The dates of a plan are in range. -/
def InRange (p : Plan) : Prop := ∀ t ∈ p.timelines, t.InRange

theorem reads {p : Plan} (h : p.InRange) : Reads decoder p.toJson p :=
  reads_object (by decide)
    (.required (reads_list fun t ht => PlanTimeline.reads (h t ht)) <| .done _) rfl

theorem shallow (room : Nat) {p : Plan} (h : p.InRange) : p.toJson.Shallow (room + 8) := by
  have htimelines : (Json.listOf PlanTimeline.toJson p.timelines).Shallow (room + 7) :=
    Json.shallow_list (Nat.succ_pos _)
      (List.forall_mem_map.mpr fun t ht => PlanTimeline.shallow room (h t ht))
  exact Json.shallow_object (Nat.succ_pos _) (List.forall_mem_singleton.mpr htimelines)

/-- **A failure is not taken for a plan.** -/
theorem decoder_ne_ok_of_failure (f : Failure) (p : Plan) :
    decoder (Draft.ofJson f.toJson) ≠ .ok p :=
  read_ne_ok_of_lacking List.mem_cons_self rfl (by simp [Field.required]) p

end Plan

theorem FailureStatus.reads (s : FailureStatus) : Reads decoder s.toJson s := by
  cases s <;> exact reads_word rfl

namespace Failure

theorem reads (f : Failure) : Reads decoder f.toJson f :=
  reads_object (by decide)
    (.required f.status.reads <|
      .required (reads_list fun s _ => reads_text s) <|
      .done _) rfl

theorem shallow (room : Nat) (f : Failure) : f.toJson.Shallow (room + 3) := by
  have hflaws : (Json.listOf .text f.flawsRemaining).Shallow (room + 2) :=
    Json.shallow_list (Nat.succ_pos _) (List.forall_mem_map.mpr fun s _ => Json.shallow_text _ s)
  have hstatus : f.status.toJson.Shallow (room + 2) := by
    cases f.status <;> exact Json.shallow_text _ _
  refine Json.shallow_object (Nat.succ_pos _) ?_
  simp only [List.forall_mem_cons, List.not_mem_nil, false_implies, implies_true, and_true]
  exact ⟨hstatus, hflaws⟩

/-- **A plan is not taken for a failure.** -/
theorem decoder_ne_ok_of_plan (p : Plan) (f : Failure) :
    decoder (Draft.ofJson p.toJson) ≠ .ok f :=
  read_ne_ok_of_lacking List.mem_cons_self rfl (by simp [Field.required]) f

end Failure

namespace Outcome

/-- The dates of the plan, if there is one, are in range. -/
def InRange : Outcome → Prop
  | .solved plan => plan.InRange
  | .failed _ => True

/-- What reads as a plan is the outcome of a search that found one. -/
theorem decoder_eq_solved {d : Draft} {plan : Plan}
    (habsorb : d.absorb Draft.nestingLimit = .ok ()) (hplan : Plan.decoder d = .ok plan) :
    decoder d = .ok (.solved plan) := by
  simp only [decoder, habsorb, hplan]
  rfl

/-- What reads as a failure, and not as a plan, is the outcome of a search that found none. -/
theorem decoder_eq_failed {d : Draft} {failure : Failure}
    (habsorb : d.absorb Draft.nestingLimit = .ok ()) (hplan : ∀ p, Plan.decoder d ≠ .ok p)
    (hfailure : Failure.decoder d = .ok failure) : decoder d = .ok (.failed failure) := by
  cases hd : Plan.decoder d with
  | ok p => exact absurd hd (hplan p)
  | error why =>
    simp only [decoder, habsorb, hd, hfailure]
    rfl

theorem reads {o : Outcome} (h : o.InRange) : Reads decoder o.toJson o := by
  cases o with
  | solved plan =>
    have hread := Plan.reads h
    exact ⟨hread.integral, decoder_eq_solved (Plan.shallow 120 h) hread.read_eq⟩
  | failed failure =>
    have hread := failure.reads
    exact ⟨hread.integral, decoder_eq_failed (failure.shallow 125)
      (Plan.decoder_ne_ok_of_failure failure) hread.read_eq⟩

end Outcome

/-! ### Violations -/

theorem ViolationKind.reads (k : ViolationKind) : Reads decoder k.toJson k := by
  cases k <;> exact reads_word rfl

theorem Violation.reads (v : Violation) : Reads decoder v.toJson v :=
  reads_object (by decide)
    (.required v.kind.reads <|
      .required (reads_text v.entity) <|
      .required (reads_text v.message) <|
      .done _) rfl

/-! ### Configurations -/

theorem GoalOrdering.reads (g : GoalOrdering) : Reads decoder g.toJson g := by
  cases g <;> exact reads_word rfl

theorem TimeSelection.reads (t : TimeSelection) : Reads decoder t.toJson t := by
  cases t <;> exact reads_word rfl

namespace TimeSpan

/-- The seconds of a length of time have 64 bits. -/
def InRange (t : TimeSpan) : Prop := t.nanoseconds / perSecond < UInt64.size

instance (t : TimeSpan) : Decidable t.InRange := inferInstanceAs (Decidable (_ < _))

theorem reads {t : TimeSpan} (h : t.InRange) : Reads decoder t.toJson t := by
  have hnanos : t.nanoseconds % perSecond < UInt32.size :=
    (Nat.mod_lt _ (by decide)).trans (by decide)
  -- the two numbers read are the quotient and the remainder
  have hdone : Fills [] []
      (⟨0 + t.nanoseconds / perSecond * perSecond + t.nanoseconds % perSecond⟩ : TimeSpan) t := by
    rw [Nat.zero_add, Nat.div_add_mod']
    exact .done t
  exact reads_object (by decide)
    (.required (reads_nat64 h) <| .required (reads_nat32 hnanos) hdone) (if_pos h)

end TimeSpan

namespace Config

/-- The numbers of a configuration are in range. -/
structure InRange (c : Config) : Prop where
  maxDecisions : c.maxDecisions < UInt64.size
  deadline : ∀ t, c.deadline = some t → t.InRange
  horizon : ∀ h, c.horizon = some h → IsInt64 h
  maxSynthesizedPerClass : c.maxSynthesizedPerClass < UInt64.size

theorem reads {c : Config} (h : c.InRange) : Reads decoder c.toJson c :=
  reads_object (by decide)
    (.defaulted (reads_nat64 h.maxDecisions) <|
      .defaulted (reads_option fun t ht =>
        ⟨TimeSpan.reads (h.deadline t ht), by simp [TimeSpan.toJson]⟩) <|
      .defaulted (reads_option fun k hk =>
        ⟨reads_int64 (h.horizon k hk), by simp [Json.int]⟩) <|
      .defaulted c.goalOrdering.reads <|
      .defaulted (reads_bool c.finalGoals) <|
      .defaulted (reads_nat64 h.maxSynthesizedPerClass) <|
      .defaulted c.timeSelection.reads <|
      .done _) rfl

end Config

/-! ### All together -/

/-- **What is written is read back.** This holds of every problem, plan, configuration and outcome
whose numbers are in range, and of every failure and violation, for documents and for texts on one
line or with indentation. A failure does not read as a plan, nor a plan as a failure. -/
theorem wire_round_trip :
    (∀ p : Problem, p.InRange → RoundTrips Problem.toJson Problem.decoder p) ∧
    (∀ p : Plan, p.InRange → RoundTrips Plan.toJson Plan.decoder p) ∧
    (∀ c : Config, c.InRange → RoundTrips Config.toJson Config.decoder c) ∧
    (∀ o : Outcome, o.InRange → RoundTrips Outcome.toJson Outcome.decoder o) ∧
    (∀ f : Failure, RoundTrips Failure.toJson Failure.decoder f) ∧
    (∀ v : Violation, RoundTrips Violation.toJson Violation.decoder v) ∧
    (∀ (f : Failure) (p : Plan), f.toJson.decode Plan.decoder ≠ .ok p) ∧
    (∀ (p : Plan) (f : Failure), p.toJson.decode Failure.decoder ≠ .ok f) :=
  ⟨fun _ h => (Problem.reads h).roundTrips, fun _ h => (Plan.reads h).roundTrips,
    fun _ h => (Config.reads h).roundTrips, fun _ h => (Outcome.reads h).roundTrips,
    fun f => f.reads.roundTrips, fun v => v.reads.roundTrips,
    fun f p h => Plan.decoder_ne_ok_of_failure f p (Json.decode_eq_ok.mp h),
    fun p f h => Failure.decoder_ne_ok_of_plan p f (Json.decode_eq_ok.mp h)⟩

/-- A crane lifts one load at a time, and more cranes may be created. -/
def cranes : Problem where
  resources := [⟨"Crane", some "crane", some 1⟩]
  timelines := [⟨"Truck", none,
    [⟨"empty", .standard, []⟩,
      ⟨"loaded", .between 2 5, [.uses (.anyOf "Crane") 1, .follows "empty"]⟩]⟩]
  facts := [⟨"Truck_1", "empty"⟩]
  goals := [⟨"Truck_1", "loaded"⟩]
  openClasses := ["Crane"]

/-- A truck that is loaded after 3. -/
def craneWork : Plan :=
  ⟨[⟨"Truck_1", [⟨"empty", 0, 3, []⟩, ⟨"loaded", 3, 5, [.named "crane", .named "Truck_1"]⟩]⟩]⟩

/-- A search that has one and a half seconds. -/
def craneSearch : Config := { deadline := some (.ofMilliseconds 1500), horizon := some 100 }

/-- The cranes with their plan and the settings of their search are in range, so that they round
trip. -/
theorem wire_round_trip_cranes :
    RoundTrips Problem.toJson Problem.decoder cranes ∧
    RoundTrips Plan.toJson Plan.decoder craneWork ∧
    RoundTrips Config.toJson Config.decoder craneSearch ∧
    RoundTrips Outcome.toJson Outcome.decoder (.solved craneWork) := by
  have hempty : (⟨"empty", .standard, []⟩ : StateTemplate).InRange :=
    ⟨⟨by decide, by simp [Duration.standard, Duration.atLeast]⟩, by simp⟩
  have hloaded : (⟨"loaded", .between 2 5, [.uses (.anyOf "Crane") 1, .follows "empty"]⟩ :
      StateTemplate).InRange :=
    ⟨⟨by decide, by simp [Duration.between, IsInt64]⟩, by simp [Condition.InRange]⟩
  have hproblem : cranes.InRange :=
    ⟨by simp [cranes, ResourceSpec.InRange],
      by simp [cranes, TimelineSpec.InRange, hempty, hloaded]⟩
  have hplan : craneWork.InRange := by
    simp [craneWork, Plan.InRange, PlanTimeline.InRange, PlanToken.InRange, IsInt64]
  have hconfig : craneSearch.InRange :=
    ⟨by decide, fun t ht => Option.some.inj ht ▸ by decide,
      fun k hk => Option.some.inj hk ▸ by decide, by decide⟩
  -- each value is in the range of its type, which is all that the round trips ask
  obtain ⟨hproblems, hplans, hconfigs, houtcomes, -⟩ := wire_round_trip
  exact ⟨hproblems _ hproblem, hplans _ hplan, hconfigs _ hconfig, houtcomes _ hplan⟩

end TemporalPlanning
