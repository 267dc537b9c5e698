import TemporalPlanning.Json.Decode
import TemporalPlanning.Proofs.Json.Text

/-!
# Readers of what was written

`Decoder.Reads read j a` says that a reader takes the document `j` for `a`. There is one lemma for
each way of making a reader. For records it is `Record.reads_object`: an object that has the fields
of a record in their order, but for some that may be left out, is read field by field
(`Record.Fills`). An object that lacks a field that has to be there is not read at all
(`Record.read_ne_ok_of_lacking`).

What is read as a document is also read as a text, on one line or with indentation
(`Decoder.Reads.roundTrips`).
-/

namespace TemporalPlanning

variable {α β : Type}

/-- A reader takes a document, whose numbers are integers, for `a`. -/
structure Decoder.Reads (read : Decoder α) (j : Json) (a : α) : Prop where
  integral : j.Integral
  read_eq : read (Draft.ofJson j) = .ok a

/-- What `write` makes of `a` is read as `a` again: as a document, as a text on one line, and as a
text with indentation. -/
structure RoundTrips (write : α → Json) (read : Decoder α) (a : α) : Prop where
  document : (write a).decode read = .ok a
  line : (Document.ofText (write a).compress).decode read = .ok a
  pretty : (Document.ofText (write a).pretty).decode read = .ok a

/-- A document without text is read from its draft. -/
theorem Json.decode_eq_ok {read : Decoder α} {j : Json} {a : α} :
    j.decode read = .ok a ↔ read (Draft.ofJson j) = .ok a := by
  rw [Json.decode]
  cases read (Draft.ofJson j) <;> simp [Except.mapError]

namespace Decoder

variable {read : Decoder α} {write : α → Json}

/-- What is read back from a value that was written round trips: through the document, and through
both ways of laying it out as text, which lead to the draft of the document. -/
theorem Reads.roundTrips {a : α} (h : Reads read (write a) a) : RoundTrips write read a where
  document := Json.decode_eq_ok.mpr h.read_eq
  line := by
    rw [h.integral.ofText_compress, Document.decode, h.read_eq]
    rfl
  pretty := by
    rw [h.integral.ofText_pretty, Document.decode, h.read_eq]
    rfl

/-! ### Scalars -/

theorem reads_text (s : String) : Reads .text (.text s) s := ⟨.text s, rfl⟩

theorem reads_bool (b : Bool) : Reads .bool (.bool b) b := ⟨.bool b, rfl⟩

/-- An integer within the bounds of its type is read back, if it is small enough to be written as an
integer at all. -/
theorem reads_integer {lo hi i : Int} (hlo : lo ≤ i) (hhi : i ≤ hi)
    (hsize : i.natAbs < UInt64.size) : Reads (integer lo hi) (.int i) i := by
  refine ⟨.int i, ?_⟩
  show integer lo hi (.number (.ofInt i)) = .ok i
  simp only [integer, Numeral.tooLarge_ofInt hsize, Numeral.toInt?_ofInt, Bool.false_eq_true,
    if_false, if_pos (And.intro hlo hhi)]

/-- A signed integer of 64 bits. -/
def IsInt64 (i : Int) : Prop := -9223372036854775808 ≤ i ∧ i ≤ 9223372036854775807

instance (i : Int) : Decidable (IsInt64 i) := inferInstanceAs (Decidable (_ ∧ _))

/-- A signed number of 64 bits fits into 64 bits without its sign. -/
theorem IsInt64.natAbs_lt {i : Int} (h : IsInt64 i) : i.natAbs < UInt64.size := by
  obtain ⟨hlo, hhi⟩ := h
  rw [show UInt64.size = 18446744073709551616 from rfl]
  omega

theorem reads_int64 {i : Int} (h : IsInt64 i) : Reads int64 (.int i) i :=
  reads_integer h.1 h.2 h.natAbs_lt

/-- A natural number below the bound of its type is read back. -/
theorem reads_natBelow {bound n : Nat} (h : n < bound) (hbound : bound ≤ UInt64.size) :
    Reads (natBelow bound) (.nat n) n := by
  refine ⟨.int n, ?_⟩
  have hread : Reads (integer 0 (bound - 1)) (.int n) n :=
    reads_integer (by omega) (by omega) (by omega)
  rw [natBelow, Json.nat, hread.read_eq]
  rfl

theorem reads_nat32 {n : Nat} (h : n < UInt32.size) : Reads nat32 (.nat n) n :=
  reads_natBelow h (by decide)

theorem reads_nat64 {n : Nat} (h : n < UInt64.size) : Reads nat64 (.nat n) n :=
  reads_natBelow h le_rfl

/-! ### Containers and variants -/

theorem Reads.map {j : Json} {a : α} (h : Reads read j a) (f : α → β) :
    Reads (fun d => (read d).map f) j (f a) := by
  refine ⟨h.integral, ?_⟩
  rw [h.read_eq]
  rfl

/-- Null is left to the value that is absent. The hypothesis that no value is itself written as
`null` cannot be dropped: a value that is present but written as `null` would be read as absent. -/
theorem reads_option {x : Option α}
    (h : ∀ a, x = some a → Reads read (write a) a ∧ write a ≠ .null) :
    Reads (option read) (.option write x) x := by
  cases x with
  | none => exact ⟨.null, rfl⟩
  | some a =>
    obtain ⟨hread, hnull⟩ := h a rfl
    refine ⟨hread.integral, ?_⟩
    -- `null` stands for the absent value, so a present one must not be printed so
    have hdraft : Draft.ofJson (write a) ≠ .null := by
      cases hj : write a <;> simp_all [Draft.ofJson]
    rw [Json.option, option]
    · rw [hread.read_eq]
      rfl
    · exact hdraft

/-- A list is read back if its elements are. The elements are read one by one, in order, by the same
reader. -/
theorem reads_list {as : List α} (h : ∀ a ∈ as, Reads read (write a) a) :
    Reads (list read) (.listOf write as) as := by
  refine ⟨.list (List.forall_mem_map.mpr fun a ha => (h a ha).integral), ?_⟩
  -- the elements are read one after the other, as they were written
  have helements : elements read (Draft.ofItems (as.map write)) = .ok as := by
    induction as with
    | nil => rfl
    | cons a as ih =>
      obtain ⟨ha, has⟩ := List.forall_mem_cons.mp h
      rw [List.map_cons, Draft.ofItems, elements, ha.read_eq, ih has]
      rfl
  rw [Json.listOf, Draft.ofJson, list, helements]
  rfl

/-- A pair is written as a list of two, and read back from that. -/
theorem reads_pair {second : Decoder β} {j k : Json} {a : α} {b : β} (hj : Reads read j a)
    (hk : Reads second k b) : Reads (pair read second) (.list [j, k]) (a, b) := by
  refine ⟨.list (by simp [hj.integral, hk.integral]), ?_⟩
  show pair read second (.list [Draft.ofJson j, Draft.ofJson k] none) = .ok (a, b)
  rw [pair, hj.read_eq, hk.read_eq]
  rfl

variable {plain : String → Option α} {filled : String → Option (Decoder α)}

/-- A variant with content. -/
theorem reads_filled {name : String} (h : filled name = some read) {j : Json} {a : α}
    (hj : Reads read j a) : Reads (tagged plain filled) (.object [(name, j)]) a := by
  refine ⟨.object (by simp [hj.integral]), ?_⟩
  show tagged plain filled (.object [(.text name, Draft.ofJson j)] none) = .ok a
  simp only [tagged, h, hj.read_eq]
  rfl

/-- A word that stands for a value. -/
theorem reads_word {words : List (String × α)} {name : String} {a : α}
    (h : words.lookup name = some a) : Reads (word words) (.text name) a := by
  refine ⟨.text name, ?_⟩
  show tagged _ _ (.text name) = .ok a
  rw [tagged, h]
  rfl

end Decoder

/-! ### Whole values -/

/-- A reader that keeps everything takes the document, with `room` levels of nesting left. -/
def Json.Shallow (room : Nat) (j : Json) : Prop := (Draft.ofJson j).absorb room = .ok ()

theorem Json.shallow_text (room : Nat) (s : String) : Shallow room (.text s) := rfl

/-- A number is as shallow as can be, if it is one of 64 bits. -/
theorem Json.shallow_int (room : Nat) {i : Int} (h : Decoder.IsInt64 i) :
    Shallow room (.int i) := by
  show Draft.absorb room (.number (.ofInt i)) = .ok ()
  simp only [Draft.absorb, Numeral.tooLarge_ofInt h.natAbs_lt, Bool.false_eq_true, if_false]

/-- A list takes one level more than what it holds. The room counts layers of brackets, as the limit
on the depth does in the program. -/
theorem Json.shallow_list {room : Nat} (hroom : 0 < room) {items : List Json}
    (h : ∀ j ∈ items, Shallow room j) : Shallow (room + 1) (.list items) := by
  -- each item lies one level below the list
  have hitems : Draft.absorbItems room (Draft.ofItems items) = .ok () := by
    induction items with
    | nil => rfl
    | cons j items ih =>
      obtain ⟨hj, hitems⟩ := List.forall_mem_cons.mp h
      rw [Draft.ofItems, Draft.absorbItems, hj]
      exact ih hitems
  rw [Shallow, Draft.ofJson, Draft.absorb, if_neg (by omega), Nat.add_sub_cancel, hitems]
  rfl

/-- An object takes one level more than its fields. Keys take no room, since they are strings. -/
theorem Json.shallow_object {room : Nat} (hroom : 0 < room) {fields : List (String × Json)}
    (h : ∀ f ∈ fields, Shallow room f.2) : Shallow (room + 1) (.object fields) := by
  -- each value lies one level below the object; names need no level
  have hfields : Draft.absorbFields room (Draft.ofFields fields) = .ok () := by
    induction fields with
    | nil => rfl
    | cons f fields ih =>
      obtain ⟨hf, hfields⟩ := List.forall_mem_cons.mp h
      rw [Draft.ofFields, Draft.absorbFields, hf]
      exact ih hfields
  rw [Shallow, Draft.ofJson, Draft.absorb, if_neg (by omega), Nat.add_sub_cancel, hfields]
  rfl

/-! ### Records -/

/-- What reading a field makes of a record, if the value of the field is read. -/
theorem Field.into_of_reads {read : Decoder β} {j : Json} {b : β} (h : read.Reads j b)
    (put : β → α → α) (a : α) : Field.into read put (Draft.ofJson j) a = .ok (put b a) := by
  rw [Field.into, h.read_eq]
  rfl

namespace Record

variable {r : Record α} {fields : List (Field α)} {js : List (String × Json)} {a b : α}

/-- Reading the fields of an object in the order of a record leads from `a` to `b`. Fields that do
not have to be there may be left out. -/
inductive Fills : List (Field α) → List (String × Json) → α → α → Prop
  | done (a : α) : Fills [] [] a a
  | put {f : Field α} {fields : List (Field α)} {j : Json} {js : List (String × Json)} {a a' b : α}
    (hj : j.Integral) (hread : f.read (Draft.ofJson j) a = .ok a') (h : Fills fields js a' b) :
    Fills (f :: fields) ((f.name, j) :: js) a b
  | leave {f : Field α} {fields : List (Field α)} {js : List (String × Json)} {a b : α}
    (hf : f.inObject = false) (h : Fills fields js a b) : Fills (f :: fields) js a b

/-- A field that has to be there is met and read. -/
theorem Fills.required {β : Type} {read : Decoder β} {name : String} {put : β → α → α} {j : Json}
    {x : β} (hx : read.Reads j x) (h : Fills fields js (put x a) b) :
    Fills (.required name read put :: fields) ((name, j) :: js) a b :=
  .put hx.integral (Field.into_of_reads hx put a) h

/-- A field with a default is always written, so that it is met and read like any other. -/
theorem Fills.defaulted {β : Type} {read : Decoder β} {name : String} {put : β → α → α} {j : Json}
    {x : β} (hx : read.Reads j x) (h : Fills fields js (put x a) b) :
    Fills (.defaulted name read put :: fields) ((name, j) :: js) a b :=
  .put hx.integral (Field.into_of_reads hx put a) h

/-- What fills a record is integral, if each of its fields was. -/
theorem Fills.integral (h : Fills fields js a b) : ∀ f ∈ js, f.2.Integral := by
  induction h with
  | done => simp
  | put hj _ _ ih => exact List.forall_mem_cons.mpr ⟨hj, ih⟩
  | leave _ _ ih => exact ih

/-- Each field is found by its name. Looking for the first field of this name is right because there
is only one. -/
theorem find?_name (hnames : (fields.map (·.name)).Nodup) {f : Field α} (hf : f ∈ fields) :
    fields.find? (fun g => g.name == f.name) = some f := by
  induction fields with
  | nil => simp at hf
  | cons g fields ih =>
    rw [List.map_cons, List.nodup_cons] at hnames
    rcases List.mem_cons.mp hf with rfl | hf
    · simp
    · -- no two fields share a name, so an earlier one does not answer for it
      have hne : g.name ≠ f.name := fun heq =>
        hnames.1 (heq ▸ List.mem_map_of_mem (f := (·.name)) hf)
      rw [List.find?_cons_of_neg (by simpa using hne)]
      exact ih hnames.2 hf

/-- The fields that were met are those seen before and those that have to be there. Distinct names
are what keeps a field from being read as an earlier one, or from being refused because its name was
met before. -/
theorem Fills.readFields (hnames : (r.fields.map (·.name)).Nodup) (h : Fills fields js a b)
    (hfields : ∀ f ∈ fields, f ∈ r.fields) (hnodup : (fields.map (·.name)).Nodup)
    (seen : List String) (hseen : ∀ f ∈ fields, f.name ∉ seen) :
    ∃ seen', r.readFields (Draft.ofFields js) seen a = .ok (b, seen') ∧ (∀ n ∈ seen, n ∈ seen') ∧
      ∀ f ∈ fields, f.inObject = true → f.name ∈ seen' := by
  -- along the fields as they are written, which is the order in which the record lists them
  induction h generalizing seen with
  | done => exact ⟨seen, rfl, fun _ h => h, by simp⟩
  | @put f fields j js a a' b _ hread _ ih =>
    rw [List.map_cons, List.nodup_cons] at hnodup
    obtain ⟨hf, hfields⟩ := List.forall_mem_cons.mp hfields
    obtain ⟨hfresh, hseen⟩ := List.forall_mem_cons.mp hseen
    -- the names behind `f` are other ones, so that `f` is not met again
    have hrest : ∀ g ∈ fields, g.name ∉ f.name :: seen := fun g hg hmem =>
      (List.mem_cons.mp hmem).elim
        (fun heq => hnodup.1 (heq ▸ List.mem_map_of_mem (f := (·.name)) hg)) (hseen g hg)
    obtain ⟨seen', hread', hold, hnew⟩ := ih hfields hnodup.2 _ hrest
    refine ⟨seen', ?_, fun n hn => hold n (List.mem_cons_of_mem _ hn),
      List.forall_mem_cons.mpr ⟨fun _ => hold _ List.mem_cons_self, hnew⟩⟩
    rw [Draft.ofFields, Record.readFields, find?_name hnames hf]
    simp only [List.contains_eq_mem, decide_eq_false hfresh, Bool.false_eq_true, if_false, hread]
    exact hread'
  | @leave f fields js a b hf _ ih =>
    rw [List.map_cons, List.nodup_cons] at hnodup
    obtain ⟨seen', hread', hold, hnew⟩ := ih (List.forall_mem_cons.mp hfields).2 hnodup.2
      seen (List.forall_mem_cons.mp hseen).2
    exact ⟨seen', hread', hold, List.forall_mem_cons.mpr
      ⟨fun htrue => absurd (hf.symm.trans htrue) (by simp), hnew⟩⟩

/-- **An object in the order of a record is read field by field.** The order is that in which the
program writes the fields; fields that may be left out are allowed to be missing. -/
theorem reads_object (hnames : (r.fields.map (·.name)).Nodup) (h : Fills r.fields js r.start a)
    (hcheck : r.check a = .ok a) : Decoder.Reads r.read (.object js) a := by
  refine ⟨.object h.integral, ?_⟩
  obtain ⟨seen, hread, -, hall⟩ := h.readFields hnames (fun _ hf => hf) hnames [] (by simp)
  -- every field that an object must have has been read
  have hseen : (r.fields.all fun f => !f.inObject || seen.contains f.name) = true := by
    refine List.all_eq_true.mpr fun f hf => ?_
    cases hin : f.inObject with
    | false => rfl
    | true => simpa using hall f hf hin
  rw [Draft.ofJson, Record.read, hread]
  show (if _ then r.check a else _) = _
  rw [if_pos hseen, hcheck]

/-! ### Fields that are not there -/

/-- Nothing is met but the fields of the object. Together with the check on missing fields this is
how an object without a required name is turned away. -/
theorem mem_of_readFields {seen seen' : List String}
    (h : r.readFields (Draft.ofFields js) seen a = .ok (b, seen')) :
    ∀ n ∈ seen', n ∈ seen ∨ n ∈ js.map (·.1) := by
  induction js generalizing seen a with
  | nil =>
    obtain ⟨-, rfl⟩ := Prod.mk.inj (Except.ok.inj h)
    exact fun n hn => .inl hn
  | cons f js ih =>
    rw [Draft.ofFields, Record.readFields] at h
    simp only [List.map_cons, List.mem_cons]
    split at h
    · next g hg =>
      split at h
      · simp at h
      · -- a field of the record: its name is noted
        cases hread : g.read (Draft.ofJson f.2) a with
        | error why => rw [hread] at h; simp [bind, Except.bind] at h
        | ok a' =>
          rw [hread] at h
          intro n hn
          -- the names seen later come from the rest of the object
          rcases ih h n hn with hmem | hmem
          · rcases List.mem_cons.mp hmem with rfl | hmem
            · exact .inr (.inl rfl)
            · exact .inl hmem
          · exact .inr (.inr hmem)
    · split at h
      · simp at h
      · -- a field that the record does not know: it is passed over
        cases hskip : (Draft.ofJson f.2).skip with
        | error why => rw [hskip] at h; simp [bind, Except.bind] at h
        | ok =>
          rw [hskip] at h
          exact fun n hn => (ih h n hn).imp_right .inr

/-- **An object that lacks a field that has to be there is refused.** Reading such an object may
fail before the missing field is noticed, but it never succeeds. -/
theorem read_ne_ok_of_lacking {f : Field α} (hf : f ∈ r.fields) (hin : f.inObject = true)
    (hlacks : f.name ∉ js.map (·.1)) (a : α) : r.read (Draft.ofJson (.object js)) ≠ .ok a := by
  rw [Draft.ofJson, Record.read]
  cases hread : r.readFields (Draft.ofFields js) [] r.start with
  | error why => simp [bind, Except.bind]
  | ok result =>
    obtain ⟨b, seen⟩ := result
    -- every name that was seen is a name of the object
    have hmissing : f.name ∉ seen := fun hmem =>
      (mem_of_readFields hread f.name hmem).elim (by simp) hlacks
    have hall : (r.fields.all fun g => !g.inObject || seen.contains g.name) = false :=
      List.all_eq_false.mpr ⟨f, hf, by simp [hin, hmissing]⟩
    show (if _ then r.check b else _) ≠ _
    -- the field is missing in the object, and so the record is refused
    rw [if_neg (by rw [hall]; decide)]
    simp

end Record

end TemporalPlanning
