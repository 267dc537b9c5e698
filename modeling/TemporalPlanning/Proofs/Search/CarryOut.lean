import TemporalPlanning.Proofs.Placing

/-!
# Decisions taken apart

For each kind of decision a lemma says in which steps it is carried out: what was looked up, which
steps succeeded one after the other, and which reservations they made. `Task.apply_eq_done` does the
same for a decision with all that belongs to it. Whatever is proved of decisions is proved from
their steps; no other proof has to look into `Task.carryOut`.
-/

namespace TemporalPlanning

namespace Task

open Edit

variable {task : Task} {s s' : PartialPlan} {made : List ReservationId} {token : TokenId} {i : Nat}
  {relation : Relation} {className : String}

/-! ### Decisions for goals -/

/-- A token that is there already serves a goal; no reservation is made. -/
theorem carryOut_supportGoal {goal : Nat} :
    task.carryOut (.supportGoal goal token) s = .done made s' ↔
      task.serveGoal goal token s = .done () s' ∧ made = [] :=
  unit_bind_pure_eq_done

/-- A token for a goal is placed and then serves it. -/
theorem carryOut_insertGoal {goal position : Nat} :
    task.carryOut (.insertGoal goal position) s = .done made s' ↔
      ∃ g, task.model.goals[goal]? = some g ∧
        ∃ token s₁, place ⟨g.timeline⟩ g.state position s = .done token s₁ ∧
          task.serveGoal goal token s₁ = .done () s' ∧ made = [] := by
  refine query_bind_eq_done.trans (exists_congr fun g => ?_)
  rw [Fault.require_eq_ok, place_bind_apply, bind_eq_done]
  simp only [unit_bind_pure_eq_done]

/-! ### Decisions for conditions -/

/-- A reservation is made on a resource that is there, and reported as made. -/
theorem carryOut_reserve {resource : ResourceId} {amount : Nat} :
    task.carryOut (.reserve token i resource amount) s = .done made s' ↔
      ∃ reservation, reserveFor token i resource amount s = .done reservation s' ∧
        made = [reservation] :=
  bind_pure_eq_done

/-- A resource is created under a fresh name, with the capacity that its class declares, and
reserved. -/
theorem carryOut_createResource {amount : Nat} :
    task.carryOut (.createResource token i className amount) s = .done made s' ↔
      ∃ resource s₁, addResource ⟨task.freshName s className, className,
          (task.model.firstResource? className).bind (·.capacity), true⟩ s = .done resource s₁ ∧
        ∃ reservation, reserveFor token i resource amount s₁ = .done reservation s' ∧
          made = [reservation] := by
  refine query_bind_eq_done.trans ?_
  simp only [Except.ok.injEq, exists_eq_left']
  refine bind_eq_done.trans ?_
  simp only [bind_pure_eq_done]

/-- A link is made to a token that is there. -/
theorem carryOut_link {supplier : TokenId} :
    task.carryOut (.link token i supplier relation) s = .done made s' ↔
      linkTo token i supplier relation s = .done () s' ∧ made = [] :=
  unit_bind_pure_eq_done

theorem carryOut_insertSupplier {timeline : TimelineId} {state : String} {position : Nat} :
    task.carryOut (.insertSupplier token i timeline state position relation) s = .done made s' ↔
      ∃ supplier s₁, place timeline state position s = .done supplier s₁ ∧
        linkTo token i supplier relation s₁ = .done () s' ∧ made = [] := by
  refine (Iff.of_eq (congrArg (· = _) place_bind_apply)).trans (bind_eq_done.trans ?_)
  simp only [unit_bind_pure_eq_done]

/-- A timeline is created under a fresh name, with the states that its class declares; a supplier is
placed on it as its first token, and linked. -/
theorem carryOut_createTimeline {state : String} :
    task.carryOut (.createTimeline token i className state relation) s = .done made s' ↔
      ∃ timeline s₁, addTimeline (task.freshName s className) (some className)
          (((task.model.firstTimeline? className).map (·.states)).getD []) true s =
            .done timeline s₁ ∧
        ∃ supplier s₂, place timeline state 0 s₁ = .done supplier s₂ ∧
          linkTo token i supplier relation s₂ = .done () s' ∧ made = [] := by
  refine query_bind_eq_done.trans ?_
  simp only [Except.ok.injEq, exists_eq_left']
  refine bind_eq_done.trans (exists_congr fun timeline => exists_congr fun s₁ =>
    and_congr_right fun _ => ?_)
  rw [place_bind_apply, bind_eq_done]
  simp only [unit_bind_pure_eq_done]

/-! ### Decisions for conflicts -/

/-- An order of two reservations is a constraint: one stops before the other starts. -/
theorem carryOut_order {before after : ReservationId} :
    task.carryOut (.order before after) s = .done made s' ↔
      ∃ b a, s.reservations.reservation? before = some b ∧
        s.reservations.reservation? after = some a ∧
        post (.precedes b.stop a.start) s = .done () s' ∧ made = [] := by
  refine query_bind_eq_done.trans ?_
  simp only [Except.ok.injEq, exists_eq_left', query_bind_eq_done]
  cases s.reservations.reservation? before <;> cases s.reservations.reservation? after <;>
    simp [stop_bind_ne_done, unit_bind_pure_eq_done]

/-! ### All that belongs to a decision -/

/-- A decision is applied if it can be carried out and no resource is overloaded after that; only
then its reservations are confirmed. -/
theorem apply_eq_done {d : Decision} {u : Unit} :
    task.apply d s = .done u s' ↔
      ∃ made s₁, task.carryOut d s = .done made s₁ ∧
        s₁.reservations.checkCapacity s₁.network = .ok none ∧
        commitAll made s₁ = .done () s' := by
  refine bind_eq_done.trans (exists_congr fun made => exists_congr fun s₁ =>
    and_congr_right fun _ => bind_eq_done.trans ?_)
  simp only [checkCapacity, check_eq_done]
  constructor
  · rintro ⟨_, _, ⟨hcapacity, rfl⟩, hcommit⟩
    exact ⟨hcapacity, hcommit⟩
  · rintro ⟨hcapacity, hcommit⟩
    exact ⟨(), s₁, ⟨hcapacity, rfl⟩, hcommit⟩

end Task

end TemporalPlanning
