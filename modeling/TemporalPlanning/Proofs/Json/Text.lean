import Mathlib.Data.List.Forall2
import TemporalPlanning.Json.Reader
import TemporalPlanning.Proofs.Json.Lexeme

/-!
# Reading what was written

A document whose numbers are integers is read as it was, whether it is written on one line or with
indentation (`Json.Integral.ofText_compress`, `Json.Integral.ofText_pretty`).

`Document.Writes s d` says that a text is read as a value wherever one belongs: the containers that
are open around it do not matter, nor does what follows it, as long as a number at its end is not
continued. The two ways of writing differ in their white space alone, so that both are instances of
what is said about lists (`Document.writes_list`) and objects (`Document.writes_object`).
-/

namespace TemporalPlanning

namespace Document

open Lexeme

/-- Where a value belongs, the text `s` is read as the value `d`, whatever follows it. It does not
begin with the bracket that would end a list. -/
structure Writes (s : String) (d : Draft) : Prop where
  value : ∀ outer rest, Ends rest →
    atValue outer (lexemes (s.toList ++ rest)) = afterValue d outer (lexemes rest)
  starts : ∀ rest lexs, Ends rest → lexemes (s.toList ++ rest) ≠ .listEnd :: lexs

/-- A text that writes a value is read as this value, and nothing is left over. -/
theorem Writes.ofText {s : String} {d : Draft} (h : Writes s d) :
    Document.ofText s = ⟨d, false⟩ := by
  have hread := h.value [] [] (by simp [Ends])
  rw [List.append_nil] at hread
  rw [Document.ofText, hread, afterValue, lexemes]
  rfl

/-! ### Scalars and strings -/

/-- What is one lexeme is read at once. Strings, numbers, truth values and `null` are of this kind,
and what follows them is left to `rest`. -/
theorem Writes.of_lexeme {s : String} {d : Draft} {l : Lexeme}
    (hlex : ∀ rest, Ends rest → lexemes (s.toList ++ rest) = l :: lexemes rest)
    (hread : ∀ outer lexs, atValue outer (l :: lexs) = afterValue d outer lexs)
    (hl : l ≠ .listEnd) : Writes s d := by
  constructor
  · intro outer rest hrest
    rw [hlex rest hrest, hread]
  · intro rest lexs hrest heq
    rw [hlex rest hrest] at heq
    exact hl (List.cons.inj heq).1

theorem writes_null : Writes "null" .null :=
  .of_lexeme (fun _ _ => lexemes_null) (fun _ _ => rfl) (by simp)

theorem writes_bool (b : Bool) : Writes (if b then "true" else "false") (.bool b) :=
  .of_lexeme (fun _ _ => lexemes_bool b) (fun _ _ => rfl) (by simp)

theorem writes_int (i : Int) : Writes (Json.writeNumeral (.ofInt i)) (.number (.ofInt i)) :=
  .of_lexeme (fun _ => lexemes_int i) (fun _ _ => rfl) (by simp)

theorem writes_text (s : String) : Writes (Json.quote s) (.text s) :=
  .of_lexeme (fun _ _ => lexemes_quote s) (fun _ _ => rfl) (by simp)

/-! ### Lists and objects -/

/-- Where a key belongs, the text `s` is read as the key and the value of a field. -/
def WritesField (s : String) (f : Key × Draft) : Prop :=
  ∀ done outer rest, Ends rest → atKey done outer (lexemes (s.toList ++ rest)) =
    afterValue f.2 (.object done f.1 :: outer) (lexemes rest)

/-- A field is the quoted name, a colon and the value, with white space after the colon at most. -/
theorem Writes.field {s b : String} {d : Draft} (h : Writes s d) (name : String)
    (hb : Blank b.toList) : WritesField (Json.quote name ++ (":" ++ b) ++ s) (.text name, d) := by
  intro done outer rest hrest
  have htext : (Json.quote name ++ (":" ++ b) ++ s).toList ++ rest =
      (Json.quote name).toList ++ (':' :: (b.toList ++ (s.toList ++ rest))) := by
    simp
  rw [htext, lexemes_quote, Mark.colon.lexemes_cons, hb.lexemes_append]
  exact h.value _ _ hrest

/-- Parts with separators between them are read one after the other, and then `close` takes them,
last part first. -/
theorem next_separated {γ : Type} {P : String → γ → Prop} (separator : String)
    (closing rest : List Char) (next close : List γ → List Lexeme → Document)
    (step : ∀ s g done cs, P s g → next done (lexemes (s.toList ++ (separator.toList ++ cs))) =
      next (g :: done) (lexemes cs))
    (last : ∀ s g done, P s g → next done (lexemes (s.toList ++ closing)) =
      close (g :: done) (lexemes rest))
    {parts : List String} {gs : List γ} (h : List.Forall₂ P parts gs) (hne : parts ≠ [])
    (done : List γ) :
    next done (lexemes ((Json.separated separator parts).toList ++ closing)) =
      close (gs.reverse ++ done) (lexemes rest) := by
  induction h generalizing done with
  | nil => exact absurd rfl hne
  | @cons s g parts gs hs hparts ih =>
    -- no separator comes after the last part
    cases parts with
    | nil =>
      obtain rfl := List.forall₂_nil_left_iff.mp hparts
      rw [Json.separated, String.intercalate_singleton]
      exact last s g done hs
    | cons s' parts =>
      rw [Json.separated, String.intercalate_cons_cons, String.toList_append, String.toList_append,
        List.append_assoc, List.append_assoc, step s g done _ hs, List.reverse_cons,
        List.append_assoc]
      exact ih (List.cons_ne_nil _ _) (g :: done)

/-- What follows the first of some parts ends a number. After it comes a comma or what closes the
container, and neither can continue a number. -/
theorem exists_separated_cons_append (s b : String) (parts : List String) {closing : List Char}
    (h : Ends closing) : ∃ cs,
      (Json.separated ("," ++ b) (s :: parts)).toList ++ closing = s.toList ++ cs ∧ Ends cs := by
  cases parts with
  -- the last part is followed by the closing text, any other by a comma
  | nil =>
    refine ⟨closing, ?_, h⟩
    rw [Json.separated, String.intercalate_singleton]
  | cons s' parts =>
    refine ⟨',' :: (b.toList ++ ((Json.separated ("," ++ b) (s' :: parts)).toList ++ closing)), ?_,
      Mark.comma.ends _⟩
    simp [Json.separated, String.intercalate_cons_cons]

theorem writes_list_nil : Writes "[]" (.list [] none) := by
  constructor
  · intro outer rest _
    show atValue outer (lexemes ('[' :: ']' :: rest)) = _
    rw [Mark.listStart.lexemes_cons, Mark.listEnd.lexemes_cons, atValue]
  · intro rest lexs _
    show lexemes ('[' :: ']' :: rest) ≠ _
    rw [Mark.listStart.lexemes_cons]
    simp

theorem writes_object_nil : Writes "\x7b\x7d" (.object [] none) := by
  constructor
  · intro outer rest _
    show atValue outer (lexemes ('\x7b' :: '\x7d' :: rest)) = _
    -- the object ends where its first key is expected
    rw [Mark.objectStart.lexemes_cons, Mark.objectEnd.lexemes_cons, atValue, atKey]
    rfl
  · intro rest lexs _
    show lexemes ('\x7b' :: '\x7d' :: rest) ≠ _
    rw [Mark.objectStart.lexemes_cons]
    simp

variable {a b c : String} {parts : List String}

/-- A list of values that is not empty, with white space anywhere between them: after the bracket,
behind each comma and before the closing bracket. -/
theorem writes_list {ds : List Draft} (ha : Blank a.toList) (hb : Blank b.toList)
    (hc : Blank c.toList) (h : List.Forall₂ Writes parts ds) (hne : parts ≠ []) :
    Writes ("[" ++ a ++ Json.separated ("," ++ b) parts ++ c ++ "]") (.list ds none) := by
  have htext : ∀ rest, ("[" ++ a ++ Json.separated ("," ++ b) parts ++ c ++ "]").toList ++ rest =
      '[' :: (a.toList ++ ((Json.separated ("," ++ b) parts).toList ++
        (c.toList ++ ']' :: rest))) := by
    simp
  constructor
  · intro outer rest hrest
    have hend : Ends (c.toList ++ ']' :: rest) := hc.ends_append (Mark.listEnd.ends rest)
    -- the list is not empty, so that its first element comes next
    have hstart : atValue outer (.listStart :: lexemes
        ((Json.separated ("," ++ b) parts).toList ++ (c.toList ++ ']' :: rest))) =
        atValue (.list [] :: outer) (lexemes
          ((Json.separated ("," ++ b) parts).toList ++ (c.toList ++ ']' :: rest))) := by
      obtain ⟨s, parts, rfl⟩ := List.exists_cons_of_ne_nil hne
      obtain ⟨d, ds, hs, -, rfl⟩ := List.forall₂_cons_left_iff.mp h
      obtain ⟨cs, hcs, hends⟩ := exists_separated_cons_append s b parts hend
      rw [hcs, atValue]
      exact fun lexs => hs.starts cs lexs hends
    -- each element is followed by a comma and white space, the last one by the bracket
    have hread := next_separated ("," ++ b) (c.toList ++ ']' :: rest) rest
      (fun done lexs => atValue (.list done :: outer) lexs)
      (fun done lexs => afterValue (.list done.reverse none) outer lexs)
      (fun s d done cs (hs : Writes s d) => by
        have hsep : ("," ++ b).toList ++ cs = ',' :: (b.toList ++ cs) := by simp
        rw [hsep, hs.value _ _ (Mark.comma.ends _), Mark.comma.lexemes_cons, afterValue,
          hb.lexemes_append])
      (fun s d done hs => by
        rw [hs.value _ _ hend, hc.lexemes_append, Mark.listEnd.lexemes_cons, afterValue])
      h hne []
    rw [htext, Mark.listStart.lexemes_cons, ha.lexemes_append, hstart]
    simpa using hread
  · -- what starts with a bracket is not the end of a list
    intro rest lexs _
    rw [htext, Mark.listStart.lexemes_cons]
    simp

/-- An object that is not empty, with white space anywhere between its fields. The blanks `a`, `b`
and `c` are those after the opening brace, after each comma and before the closing brace; both ways
of writing a document choose them. -/
theorem writes_object {fs : List (Key × Draft)} (ha : Blank a.toList) (hb : Blank b.toList)
    (hc : Blank c.toList) (h : List.Forall₂ WritesField parts fs) (hne : parts ≠ []) :
    Writes ("\x7b" ++ a ++ Json.separated ("," ++ b) parts ++ c ++ "\x7d") (.object fs none) := by
  have htext : ∀ rest,
      ("\x7b" ++ a ++ Json.separated ("," ++ b) parts ++ c ++ "\x7d").toList ++ rest =
      '\x7b' :: (a.toList ++ ((Json.separated ("," ++ b) parts).toList ++
        (c.toList ++ '\x7d' :: rest))) := by
    simp
  constructor
  · intro outer rest hrest
    have hend : Ends (c.toList ++ '\x7d' :: rest) := hc.ends_append (Mark.objectEnd.ends rest)
    -- a key is expected where a list expects a value
    have hread := next_separated ("," ++ b) (c.toList ++ '\x7d' :: rest) rest
      (fun done lexs => atKey done outer lexs)
      (fun done lexs => afterValue (.object done.reverse none) outer lexs)
      (fun s f done cs (hs : WritesField s f) => by
        have hsep : ("," ++ b).toList ++ cs = ',' :: (b.toList ++ cs) := by simp
        rw [hsep, hs _ _ _ (Mark.comma.ends _), Mark.comma.lexemes_cons, afterValue,
          hb.lexemes_append])
      (fun s f done hs => by
        rw [hs _ _ _ hend, hc.lexemes_append, Mark.objectEnd.lexemes_cons, afterValue])
      h hne []
    rw [htext, Mark.objectStart.lexemes_cons, ha.lexemes_append, atValue]
    simpa using hread
  · intro rest lexs _
    -- the text starts with a brace, so that no list ends with it
    rw [htext, Mark.objectStart.lexemes_cons]
    simp

end Document

/-! ### Whole documents -/

namespace Draft

/-- The drafts of a list are those of its elements; the functions on lists are defined along with
those on documents. -/
theorem ofItems_eq_map (items : List Json) : ofItems items = items.map ofJson := by
  induction items with
  | nil => rfl
  | cons j items ih => rw [ofItems, ih, List.map_cons]

theorem ofFields_eq_map (fields : List (String × Json)) :
    ofFields fields = fields.map fun f => (.text f.1, ofJson f.2) := by
  induction fields with
  | nil => rfl
  | cons f fields ih => rw [ofFields, ih, List.map_cons]

end Draft

namespace Json

open Lexeme Document

/-- All numbers of a document are integers. -/
inductive Integral : Json → Prop
  | null : Integral .null
  | bool (b : Bool) : Integral (.bool b)
  | int (i : Int) : Integral (.int i)
  | text (s : String) : Integral (.text s)
  | list {items : List Json} (h : ∀ j ∈ items, Integral j) : Integral (.list items)
  | object {fields : List (String × Json)} (h : ∀ f ∈ fields, Integral f.2) :
    Integral (.object fields)

theorem compressItems_eq_map (items : List Json) : compressItems items = items.map compress := by
  induction items with
  | nil => rfl
  | cons j items ih => rw [compressItems, ih, List.map_cons]

theorem compressFields_eq_map (fields : List (String × Json)) :
    compressFields fields = fields.map fun f => quote f.1 ++ ":" ++ compress f.2 := by
  induction fields with
  | nil => rfl
  | cons f fields ih => rw [compressFields, ih, List.map_cons]

theorem prettyItems_eq_map (level : Nat) (items : List Json) :
    prettyItems level items = items.map (prettyAt level) := by
  induction items with
  | nil => rfl
  | cons j items ih => rw [prettyItems, ih, List.map_cons]

theorem prettyFields_eq_map (level : Nat) (fields : List (String × Json)) :
    prettyFields level fields = fields.map fun f => quote f.1 ++ ": " ++ prettyAt level f.2 := by
  induction fields with
  | nil => rfl
  | cons f fields ih => rw [prettyFields, ih, List.map_cons]

theorem blank_empty : Blank "".toList := by simp [Blank]

theorem blank_space : Blank " ".toList := by simp [Blank, isBlank]

/-- A line break and the indentation behind it are white space. -/
theorem blank_newline (level : Nat) : Blank (newline level).toList := by
  intro c hc
  simp only [newline, String.toList_append, String.toList_ofList, List.mem_append] at hc
  rcases hc with hc | hc
  · obtain rfl : c = '\n' := by simpa using hc
    decide
  · rw [List.eq_of_mem_replicate hc]
    decide

/-- What is known of each element holds of the list of texts and drafts. -/
theorem forall₂_items {write : Json → String} {items : List Json}
    (h : ∀ j ∈ items, Writes (write j) (Draft.ofJson j)) :
    List.Forall₂ Writes (items.map write) (Draft.ofItems items) := by
  rw [Draft.ofItems_eq_map, List.forall₂_map_left_iff, List.forall₂_map_right_iff,
    List.forall₂_same]
  exact h

theorem forall₂_fields {write : Json → String} {b : String} (hb : Blank b.toList)
    {fields : List (String × Json)} (h : ∀ f ∈ fields, Writes (write f.2) (Draft.ofJson f.2)) :
    List.Forall₂ WritesField (fields.map fun f => quote f.1 ++ (":" ++ b) ++ write f.2)
      (Draft.ofFields fields) := by
  rw [Draft.ofFields_eq_map, List.forall₂_map_left_iff, List.forall₂_map_right_iff,
    List.forall₂_same]
  exact fun f hf => (h f hf).field f.1 hb

/-- The text on one line is read as the draft of the document. The induction is on the document, and
its two cases with parts use the lemmas on lists and objects with no blanks at all. -/
theorem Integral.writes_compress {j : Json} (h : j.Integral) :
    Writes j.compress (Draft.ofJson j) := by
  induction h with
  | null => exact writes_null
  | bool b => exact writes_bool b
  | int i => exact writes_int i
  | text s => exact writes_text s
  | @list items _ ih =>
    rw [compress, compressItems_eq_map, Draft.ofJson]
    -- brackets without content are written without any white space
    cases items with
    | nil => exact writes_list_nil
    | cons j items =>
      have := writes_list blank_empty blank_empty blank_empty (forall₂_items ih) (by simp)
      simpa using this
  -- an object is a list of fields, each with its name in front
  | @object fields _ ih =>
    rw [compress, compressFields_eq_map, Draft.ofJson]
    cases fields with
    | nil => exact writes_object_nil
    | cons f fields =>
      have := writes_object blank_empty blank_empty blank_empty (forall₂_fields blank_empty ih)
        (by simp)
      simpa using this

/-- The indented text is read as the same draft, whatever the level of the indentation is. The level
is general because each layer of the document is indented one step more than the one around it. -/
theorem Integral.writes_prettyAt {j : Json} (h : j.Integral) (level : Nat) :
    Writes (j.prettyAt level) (Draft.ofJson j) := by
  -- every layer is written with its own indentation, so the level is left open
  induction h generalizing level with
  | null => exact writes_null
  | bool b => exact writes_bool b
  | int i => exact writes_int i
  | text s => exact writes_text s
  | @list items _ ih =>
    rw [prettyAt, prettyItems_eq_map]
    cases items with
    | nil => exact writes_list_nil
    | cons j items =>
      exact writes_list (blank_newline _) (blank_newline _) (blank_newline _)
        (forall₂_items fun j hj => ih j hj _) (by simp)
  -- here a space stands behind each colon as well
  | @object fields _ ih =>
    rw [prettyAt, prettyFields_eq_map]
    cases fields with
    | nil => exact writes_object_nil
    | cons f fields =>
      exact writes_object (blank_newline _) (blank_newline _) (blank_newline _)
        (forall₂_fields blank_space fun f hf => ih f hf _) (by simp)

/-- **A document on one line is read as it was.** -/
theorem Integral.ofText_compress {j : Json} (h : j.Integral) :
    Document.ofText j.compress = ⟨Draft.ofJson j, false⟩ :=
  h.writes_compress.ofText

/-- **A document with indentation is read as it was.** -/
theorem Integral.ofText_pretty {j : Json} (h : j.Integral) :
    Document.ofText j.pretty = ⟨Draft.ofJson j, false⟩ :=
  (h.writes_prettyAt 0).ofText

end Json

end TemporalPlanning
