import TemporalPlanning.Search.Apply
import Mathlib.Data.List.Forall2
import Mathlib.Tactic.Linarith

/-!
# How edits end

An edit succeeds, gets stuck or is forbidden. The lemmas of this file say what each of the single
edits has done when it ends in one of the first two ways, and how an edit made of two ends
(`Edit.bind_eq_done`, `Edit.bind_eq_stuck`). With them a compound edit is taken apart from the
front, one step at a time, and no proof has to look into the definition of an edit. Most single
edits cannot get stuck, and neither can an edit that is made of such edits (`Edit.Unstuck`).
-/

namespace TemporalPlanning

namespace Fault

variable {α β : Type}

@[simp] theorem require_eq_ok {o : Option α} {a : α} : require o = .ok a ↔ o = some a := by
  cases o <;> simp [require]

/-- A look-up that goes on with what it found. -/
theorem bind_eq_ok {x : Except Fault α} {f : α → Except Fault β} {b : β} :
    (x >>= f) = .ok b ↔ ∃ a, x = .ok a ∧ f a = .ok b := by
  cases x with
  | ok a => exact ⟨fun h => ⟨a, rfl, h⟩, fun ⟨_, ha, h⟩ => Except.ok.inj ha ▸ h⟩
  | error e =>
    exact ⟨fun h => absurd h (by simp [bind, Except.bind]), fun ⟨_, ha, _⟩ => by simp at ha⟩

@[simp] theorem pure_eq_ok {a b : α} : (pure a : Except Fault α) = .ok b ↔ a = b :=
  ⟨fun h => Except.ok.inj h, fun h => congrArg _ h⟩

@[simp] theorem map_eq_ok {x : Except Fault α} {f : α → β} {b : β} :
    x.map f = .ok b ↔ ∃ a, x = .ok a ∧ f a = b := by
  cases x <;> simp [Except.map]

/-- A list goes through element by element. The list of results is as long as the list of elements,
and a fault at any of them is a fault of the whole. -/
theorem mapM_eq_ok {f : α → Except Fault β} {as : List α} {bs : List β} :
    as.mapM f = .ok bs ↔ List.Forall₂ (fun a b => f a = .ok b) as bs := by
  induction as generalizing bs with
  -- an empty list yields an empty list, and nothing can fail
  | nil =>
    rw [List.mapM_nil, pure_eq_ok, eq_comm]
    exact List.forall₂_nil_left_iff.symm
  | cons a as ih =>
    rw [List.mapM_cons, bind_eq_ok]
    simp only [bind_eq_ok, pure_eq_ok, ih, List.forall₂_cons_left_iff]
    -- for the list behind the first element this is the induction hypothesis
    constructor
    · rintro ⟨b, hb, bs, hbs, rfl⟩
      exact ⟨b, bs, hb, hbs, rfl⟩
    · rintro ⟨b, bs, hb, hbs, rfl⟩
      exact ⟨b, hb, bs, hbs, rfl⟩

/-- The results for the elements of a list. Every element has a result in the list, and every result
comes from an element; the order is not kept track of here. -/
theorem mem_mapM {f : α → Except Fault β} {as : List α} {bs : List β} (h : as.mapM f = .ok bs) :
    (∀ a ∈ as, ∃ b ∈ bs, f a = .ok b) ∧ ∀ b ∈ bs, ∃ a ∈ as, f a = .ok b := by
  -- the two lists run in step
  induction mapM_eq_ok.mp h with
  | nil => simp
  | @cons a b as bs hab hrest ih =>
    obtain ⟨left, right⟩ := ih (mapM_eq_ok.mpr hrest)
    constructor
    · refine List.forall_mem_cons.mpr ⟨⟨b, List.mem_cons_self, hab⟩, fun a' ha' => ?_⟩
      obtain ⟨b', hb', hab'⟩ := left a' ha'
      exact ⟨b', List.mem_cons_of_mem _ hb', hab'⟩
    · refine List.forall_mem_cons.mpr ⟨⟨a, List.mem_cons_self, hab⟩, fun b' hb' => ?_⟩
      obtain ⟨a', ha', hab'⟩ := right b' hb'
      exact ⟨a', List.mem_cons_of_mem _ ha', hab'⟩

/-! ### Without fault -/

theorem exists_bind {x : Except Fault α} {f : α → Except Fault β} (hx : ∃ a, x = .ok a)
    (hf : ∀ a, x = .ok a → ∃ b, f a = .ok b) : ∃ b, (x >>= f) = .ok b := by
  obtain ⟨a, ha⟩ := hx
  obtain ⟨b, hb⟩ := hf a ha
  exact ⟨b, bind_eq_ok.mpr ⟨a, ha, hb⟩⟩

theorem exists_ite {p : Prop} [Decidable p] {x y : Except Fault α} (hx : p → ∃ a, x = .ok a)
    (hy : ¬ p → ∃ a, y = .ok a) : ∃ a, (if p then x else y) = .ok a := by
  split
  · next hp => exact hx hp
  · next hp => exact hy hp

theorem exists_map {x : Except Fault α} (f : α → β) (hx : ∃ a, x = .ok a) :
    ∃ b, x.map f = .ok b := by
  obtain ⟨a, ha⟩ := hx
  exact ⟨f a, map_eq_ok.mpr ⟨a, ha, rfl⟩⟩

/-- Steps without fault go through a list. -/
theorem exists_mapM {f : α → Except Fault β} {as : List α} (h : ∀ a ∈ as, ∃ b, f a = .ok b) :
    ∃ bs, as.mapM f = .ok bs := by
  induction as with
  | nil => exact ⟨[], rfl⟩
  | cons a as ih =>
    obtain ⟨⟨b, hb⟩, h⟩ := List.forall_mem_cons.mp h
    obtain ⟨bs, hbs⟩ := ih h
    exact ⟨b :: bs, mapM_eq_ok.mpr (.cons hb (mapM_eq_ok.mp hbs))⟩

/-- Tests without fault filter a list. -/
theorem exists_filter {test : α → Except Fault Bool} {as : List α}
    (h : ∀ a ∈ as, ∃ b, test a = .ok b) : ∃ bs, Fault.filter test as = .ok bs := by
  induction as with
  | nil => exact ⟨[], rfl⟩
  | cons a as ih =>
    obtain ⟨⟨b, hb⟩, h⟩ := List.forall_mem_cons.mp h
    obtain ⟨bs, hbs⟩ := ih h
    exact ⟨_, bind_eq_ok.mpr ⟨b, hb, bind_eq_ok.mpr ⟨bs, hbs, rfl⟩⟩⟩

/-- A filter that meets no fault keeps the elements that pass the test. The test is applied to every
element, in order, even after some have failed, which is why none of them can be a fault. -/
theorem mem_filter {test : α → Except Fault Bool} {as bs : List α}
    (h : Fault.filter test as = .ok bs) :
    (∀ a ∈ as, ∃ passes, test a = .ok passes) ∧ ∀ a, a ∈ bs ↔ a ∈ as ∧ test a = .ok true := by
  -- a test that faults makes the whole filter fault, so that all elements have answers
  induction as generalizing bs with
  | nil =>
    obtain rfl := Except.ok.inj h
    simp
  | cons a as ih =>
    obtain ⟨passes, hpasses, h⟩ := bind_eq_ok.mp h
    obtain ⟨kept, hkept, h⟩ := bind_eq_ok.mp h
    obtain rfl := Except.ok.inj h
    obtain ⟨hall, hmem⟩ := ih hkept
    refine ⟨List.forall_mem_cons.mpr ⟨⟨passes, hpasses⟩, hall⟩, fun b => ?_⟩
    -- the head is kept or dropped, as it passes the test or not
    cases passes with
    | true =>
      rw [if_pos rfl, List.mem_cons, List.mem_cons, hmem]
      constructor
      · rintro (rfl | ⟨hb, htest⟩)
        · exact ⟨.inl rfl, hpasses⟩
        · exact ⟨.inr hb, htest⟩
      · rintro ⟨rfl | hb, htest⟩
        · exact .inl rfl
        · exact .inr ⟨hb, htest⟩
    | false =>
      rw [if_neg Bool.false_ne_true, List.mem_cons, hmem]
      constructor
      · rintro ⟨hb, htest⟩
        exact ⟨.inr hb, htest⟩
      · rintro ⟨rfl | hb, htest⟩
        · -- the head itself has failed the test
          rw [hpasses] at htest
          exact absurd htest (by simp)
        · exact ⟨hb, htest⟩

end Fault

/-- A timepoint is required to be in the network, and that is all. -/
@[simp] theorem Network.require_eq_ok {net : Network} {t : Timepoint} {u : Unit} :
    net.require t = .ok u ↔ net.contains t := by
  unfold Network.require
  split <;> simp_all

/-! ### Parts of a partial plan -/

namespace PartialPlan

variable {s s' : PartialPlan}

/-- Partial plans with the same tracked network have the same network. -/
theorem network_congr (h : s'.net = s.net) : s'.network = s.network := congrArg Trailed.value h

/-- Partial plans with the same tracked book have the same reservations. -/
theorem reservations_congr (h : s'.book = s.book) : s'.reservations = s.reservations :=
  congrArg Trailed.value h

/-- Partial plans with the same tracked chronicle have the same chronicle. -/
theorem chronicle_congr (h : s'.chron = s.chron) : s'.chronicle = s.chronicle :=
  congrArg Trailed.value h

end PartialPlan

namespace Edit

variable {α β : Type} {s s' s'' : PartialPlan} {why : DeadEnd}

/-! ### Putting edits together -/

/-- Two edits in a row: the second one starts where the first was done, and does not start if the
first got stuck or was forbidden. -/
theorem bind_apply (x : Edit α) (f : α → Edit β) (s : PartialPlan) :
    (x >>= f) s = match x s with
      | .done a s => f a s
      | .stuck why s => .stuck why s
      | .forbidden why => .forbidden why := rfl

/-- Two edits in a row are done if the first one is and the second one is from there. -/
theorem bind_eq_done {x : Edit α} {f : α → Edit β} {b : β} :
    (x >>= f) s = .done b s'' ↔ ∃ a s', x s = .done a s' ∧ f a s' = .done b s'' := by
  rw [bind_apply]
  cases x s <;> simp

/-- Two edits in a row get stuck in the first one, or in the second one after the first was done. -/
theorem bind_eq_stuck {x : Edit α} {f : α → Edit β} :
    (x >>= f) s = .stuck why s'' ↔
      x s = .stuck why s'' ∨ ∃ a s', x s = .done a s' ∧ f a s' = .stuck why s'' := by
  rw [bind_apply]
  cases x s <;> simp

@[simp] theorem pure_eq_done {a b : α} :
    (pure a : Edit α) s = .done b s' ↔ a = b ∧ s = s' := by
  show EditResult.done a s = .done b s' ↔ _
  simp

/-- An edit that ends by making its result from the one of its last step. -/
theorem bind_pure_eq_done {x : Edit α} {f : α → β} {b : β} :
    (x >>= fun a => pure (f a)) s = .done b s' ↔ ∃ a, x s = .done a s' ∧ b = f a := by
  simp only [bind_eq_done, pure_eq_done]
  constructor
  · rintro ⟨a, _, h, rfl, rfl⟩
    exact ⟨a, h, rfl⟩
  · rintro ⟨a, h, rfl⟩
    exact ⟨a, s', h, rfl, rfl⟩

/-- An edit without an answer can be given one afterwards. -/
theorem unit_bind_pure_eq_done {x : Edit Unit} {b b' : β} :
    (x >>= fun _ => pure b') s = .done b s' ↔ x s = .done () s' ∧ b = b' :=
  bind_pure_eq_done.trans ⟨fun ⟨_, h⟩ => h, fun h => ⟨(), h⟩⟩

@[simp] theorem pure_ne_stuck {a : α} : ¬ (pure a : Edit α) s = .stuck why s' := by
  show ¬ EditResult.done a s = .stuck why s'
  simp

@[simp] theorem stop_ne_done {a : α} {w : DeadEnd} : ¬ (stop w : Edit α) s = .done a s' := by
  simp [stop]

theorem stop_bind_ne_done {w : DeadEnd} {f : α → Edit β} {b : β} :
    ¬ (stop w >>= f) s = .done b s' := by
  simp [bind_apply, stop]

@[simp] theorem stop_eq_stuck {w : DeadEnd} :
    (stop w : Edit α) s = .stuck why s' ↔ w = why ∧ s = s' := by
  simp [stop]

@[simp] theorem forbid_ne_done {a : α} {f : Fault} : ¬ (forbid f : Edit α) s = .done a s' := by
  simp [forbid]

@[simp] theorem forbid_ne_stuck {f : Fault} : ¬ (forbid f : Edit α) s = .stuck why s' := by
  simp [forbid]

/-! ### Single edits -/

/-- A look-up is done with what it finds, and changes nothing. -/
@[simp] theorem query_eq_done {f : PartialPlan → Except Fault α} {a : α} :
    query f s = .done a s' ↔ f s = .ok a ∧ s = s' := by
  unfold query
  split <;> simp_all

@[simp] theorem query_ne_stuck {f : PartialPlan → Except Fault α} :
    ¬ query f s = .stuck why s' := by
  unfold query
  split <;> simp

/-- A check is done if it finds no dead end, and changes nothing. -/
@[simp] theorem check_eq_done {f : PartialPlan → Except Fault (Option DeadEnd)} {u : Unit} :
    check f s = .done u s' ↔ f s = .ok none ∧ s = s' := by
  unfold check
  split <;> simp_all

/-- A check gets stuck with the dead end that it finds, and changes nothing. -/
@[simp] theorem check_eq_stuck {f : PartialPlan → Except Fault (Option DeadEnd)} :
    check f s = .stuck why s' ↔ f s = .ok (some why) ∧ s = s' := by
  unfold check
  split <;> simp_all

/-- An edit of the network is done always, and leaves the book and the chronicle alone. -/
@[simp] theorem onNetwork_eq_done {f : TrackedNetwork → TrackedNetwork × α} {a : α} :
    onNetwork f s = .done a s' ↔ (f s.net).2 = a ∧ { s with net := (f s.net).1 } = s' := by
  simp [onNetwork]

@[simp] theorem onNetwork_ne_stuck {f : TrackedNetwork → TrackedNetwork × α} :
    ¬ onNetwork f s = .stuck why s' := by
  simp [onNetwork]

/-- An edit of the book is done where the book allows it, and leaves the network and the chronicle
alone. -/
@[simp] theorem onBook_eq_done {f : TrackedBook → Except Fault (TrackedBook × α)} {a : α} :
    onBook f s = .done a s' ↔ ∃ book, f s.book = .ok (book, a) ∧ { s with book } = s' := by
  obtain ⟨net, book, chron⟩ := s
  simp only [onBook]
  cases hf : f book with
  | ok r => obtain ⟨book', b⟩ := r; simp [and_assoc]
  | error e => simp

@[simp] theorem onBook_ne_stuck {f : TrackedBook → Except Fault (TrackedBook × α)} :
    ¬ onBook f s = .stuck why s' := by
  obtain ⟨net, book, chron⟩ := s
  simp only [onBook]
  split <;> simp

/-- An edit of the chronicle is done where the chronicle allows it, and leaves the network and the
book alone. -/
@[simp] theorem onChronicle_eq_done {f : TrackedChronicle → Except Fault (TrackedChronicle × α)}
    {a : α} :
    onChronicle f s = .done a s' ↔ ∃ chron, f s.chron = .ok (chron, a) ∧ { s with chron } = s' := by
  obtain ⟨net, book, chron⟩ := s
  simp only [onChronicle]
  cases hf : f chron with
  | ok r => obtain ⟨chron', b⟩ := r; simp [and_assoc]
  | error e => simp

@[simp] theorem onChronicle_ne_stuck
    {f : TrackedChronicle → Except Fault (TrackedChronicle × α)} :
    ¬ onChronicle f s = .stuck why s' := by
  obtain ⟨net, book, chron⟩ := s
  simp only [onChronicle]
  split <;> simp

/-! ### Edits that do not get stuck -/

/-- An edit does not get stuck: it succeeds, unless it is forbidden. -/
def Unstuck (e : Edit α) (s : PartialPlan) : Prop := ∀ why s', e s ≠ .stuck why s'

theorem unstuck_pure {a : α} : (pure a : Edit α).Unstuck s := fun _ _ => pure_ne_stuck

theorem unstuck_query {f : PartialPlan → Except Fault α} : (query f).Unstuck s :=
  fun _ _ => query_ne_stuck

theorem unstuck_onNetwork {f : TrackedNetwork → TrackedNetwork × α} : (onNetwork f).Unstuck s :=
  fun _ _ => onNetwork_ne_stuck

theorem unstuck_onBook {f : TrackedBook → Except Fault (TrackedBook × α)} :
    (onBook f).Unstuck s := fun _ _ => onBook_ne_stuck

theorem unstuck_onChronicle {f : TrackedChronicle → Except Fault (TrackedChronicle × α)} :
    (onChronicle f).Unstuck s := fun _ _ => onChronicle_ne_stuck

/-- Two edits do not get stuck if the first one does not, and neither does the second one where the
first one has succeeded. -/
theorem Unstuck.bind {x : Edit α} {f : α → Edit β} (hx : x.Unstuck s)
    (hf : ∀ a s', x s = .done a s' → (f a).Unstuck s') : (x >>= f).Unstuck s := by
  intro why s' hs
  rcases bind_eq_stuck.mp hs with hs | ⟨a, s₁, h₁, hs⟩
  · exact hx why s' hs
  · exact hf a s₁ h₁ why s' hs

/-- Edits that do the same at a partial plan get stuck there alike. -/
theorem Unstuck.congr {e e' : Edit α} (heq : e s = e' s) (h : e'.Unstuck s) : e.Unstuck s := by
  rw [Unstuck, heq]
  exact h

/-- An edit that looks something up goes on with what it has found. -/
theorem query_bind_apply {f : PartialPlan → Except Fault α} {g : α → Edit β} {a : α}
    (h : f s = .ok a) : (query f >>= g) s = g a s := by
  rw [bind_apply, query, h]

/-- After a look-up one goes on from the same partial plan. -/
theorem query_bind_eq_done {f : PartialPlan → Except Fault α} {g : α → Edit β} {b : β} :
    (query f >>= g) s = .done b s' ↔ ∃ a, f s = .ok a ∧ g a s = .done b s' := by
  simp only [bind_eq_done, query_eq_done]
  constructor
  · rintro ⟨a, _, ⟨ha, rfl⟩, hb⟩
    exact ⟨a, ha, hb⟩
  · rintro ⟨a, ha, hb⟩
    exact ⟨a, s, ⟨ha, rfl⟩, hb⟩

/-- It does not matter how three edits in a row are bracketed. -/
theorem bind_assoc_apply {γ : Type} {x : Edit α} {f : α → Edit β} {g : β → Edit γ} :
    ((x >>= f) >>= g) s = (x >>= fun a => f a >>= g) s := by
  rw [bind_apply, bind_apply, bind_apply]
  cases x s <;> rfl

/-- Both timepoints are required to be in the network; nothing changes. -/
theorem requireTimepoints_eq_done {t u : Timepoint} {a : Unit} :
    requireTimepoints t u s = .done a s' ↔
      (s.network.contains t ∧ s.network.contains u) ∧ s = s' := by
  simp only [requireTimepoints, query_eq_done, Fault.bind_eq_ok, Network.require_eq_ok,
    exists_const]

theorem requireTimepoints_ne_stuck {t u : Timepoint} :
    ¬ requireTimepoints t u s = .stuck why s' := query_ne_stuck

/-- A constraint is posted if the network admits it. Both timepoints have to be there, as an unknown
one is a fault and not a refusal. -/
theorem post_eq_done {c : Constraint} {u : Unit} :
    post c s = .done u s' ↔ (s.network.contains c.first ∧ s.network.contains c.second) ∧
      s.network.admits c ∧ { s with net := s.net.enforce c } = s' := by
  unfold post
  refine bind_eq_done.trans ?_
  simp only [requireTimepoints_eq_done]
  constructor
  · -- both ends are known, so that what is left is whether the network admits the constraint
    rintro ⟨-, _, ⟨hc, rfl⟩, h⟩
    split at h
    · next hadmits => exact ⟨hc, hadmits, (onNetwork_eq_done.mp h).2⟩
    · exact absurd h (by simp)
  · -- conversely the two tests are passed one after the other
    rintro ⟨hc, hadmits, hs'⟩
    refine ⟨(), s, ⟨hc, rfl⟩, ?_⟩
    rw [if_pos hadmits]
    exact onNetwork_eq_done.mpr ⟨rfl, hs'⟩

/-- A constraint that the network does not admit changes nothing. The refusal carries the
constraint, and the network is not touched before the test has been made. -/
theorem post_eq_stuck {c : Constraint} :
    post c s = .stuck why s' ↔ (s.network.contains c.first ∧ s.network.contains c.second) ∧
      ¬ s.network.admits c ∧ why = .inconsistent c ∧ s = s' := by
  unfold post
  refine bind_eq_stuck.trans ((or_iff_right requireTimepoints_ne_stuck).trans ?_)
  simp only [requireTimepoints_eq_done]
  constructor
  · -- the refusal names the constraint and comes before any change
    rintro ⟨-, _, ⟨hc, rfl⟩, h⟩
    split at h
    · exact absurd h (by simp)
    · next hadmits =>
      obtain ⟨rfl, rfl⟩ := EditResult.stuck.inj h
      exact ⟨hc, hadmits, rfl, rfl⟩
  · rintro ⟨hc, hadmits, rfl, rfl⟩
    exact ⟨(), s, ⟨hc, rfl⟩, if_neg hadmits⟩

end Edit

end TemporalPlanning
