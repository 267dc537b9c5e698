import TemporalPlanning.Json.Draft

/-!
# Lexemes of a JSON text

`lexemes` cuts a text into brackets, separators, strings and scalars and leaves out the white space
between them. A string, number or word that breaks is a lexeme too: it carries the reasons for which
reading and skipping it fail. What follows a broken lexeme is of no interest to any reader.
-/

namespace TemporalPlanning

/-- A piece of a JSON text. -/
inductive Lexeme where
  | listStart
  | listEnd
  | objectStart
  | objectEnd
  | comma
  | colon
  /-- A string, in the form in which a key is kept. -/
  | text (content : Key)
  | scalar (value : Draft)
  deriving Repr

/-- The draft of a string from what a key at its place would be. -/
def Key.toDraft : Key → Draft
  | .text s => .text s
  | .unpaired => .unpaired
  | .unreadable read skipped => if read = skipped then .broken read else .garbled read skipped

namespace Lexeme

/-! ### Digits and words -/

/-- Whether a character is white space of JSON. -/
def isBlank (c : Char) : Bool := c = ' ' || c = '\n' || c = '\t' || c = '\r'

/-- The value of decimal digits. -/
def decimal (digits : List Char) : Nat :=
  digits.foldl (fun n c => 10 * n + (c.toNat - '0'.toNat)) 0

/-- The value of a hexadecimal digit. -/
def hexDigit? (c : Char) : Option Nat :=
  if '0' ≤ c ∧ c ≤ '9' then some (c.toNat - '0'.toNat)
  else if 'a' ≤ c ∧ c ≤ 'f' then some (c.toNat - 'a'.toNat + 10)
  else if 'A' ≤ c ∧ c ≤ 'F' then some (c.toNat - 'A'.toNat + 10)
  else none

/-- The value of four hexadecimal digits. -/
def hex4? (a b c d : Char) : Option Nat := do
  return 4096 * (← hexDigit? a) + 256 * (← hexDigit? b) + 16 * (← hexDigit? c) + (← hexDigit? d)

/-- A result together with the text that follows it, no longer than the text it was read from. -/
abbrev Scan (α : Type) (cs : List Char) := α × { rest : List Char // rest.length ≤ cs.length }

/-- Follows the letters of a word. -/
def scanWord (value : Draft) : (word : List Char) → (cs : List Char) → Scan Draft cs
  | [], cs => (value, ⟨cs, Nat.le_refl _⟩)
  | _ :: _, [] => (.garbled .truncated .truncated, ⟨[], Nat.le_refl _⟩)
  | w :: word, c :: cs =>
    if w = c then
      let (d, ⟨rest, h⟩) := scanWord value word cs
      (d, ⟨rest, Nat.le_succ_of_le h⟩)
    else (.garbled .malformed .malformed, ⟨c :: cs, Nat.le_refl _⟩)

/-! ### Numbers -/

/-- What a number lacks where its text ends or goes on with `cs`: a reader reports the end of the
text, a skipper does not. -/
def missingDigit : List Char → Draft
  | [] => .garbled .truncated .malformed
  | _ :: _ => .garbled .malformed .malformed

/-- The longest run of decimal digits, and what follows it. -/
def spanDigits (cs : List Char) : Scan (List Char) cs :=
  (cs.takeWhile Char.isDigit,
    ⟨cs.dropWhile Char.isDigit, (List.dropWhile_sublist _).length_le⟩)

/-- The exponent of a number whose other parts are known. -/
def scanExponent (negative : Bool) (digits : Nat) (scale : Int) (whole : Bool) :
    (cs : List Char) → Scan Draft cs
  | [] => (.number ⟨negative, digits, scale, whole⟩, ⟨[], Nat.le_refl _⟩)
  | c :: cs =>
    if c = 'e' ∨ c = 'E' then
      let (minus, ⟨body, hb⟩) : Scan Bool cs :=
        match cs with
        | '-' :: cs => (true, ⟨cs, Nat.le_succ _⟩)
        | '+' :: cs => (false, ⟨cs, Nat.le_succ _⟩)
        | cs => (false, ⟨cs, Nat.le_refl _⟩)
      let (run, ⟨rest, hr⟩) := spanDigits body
      -- an exponent has a digit at least; whether the number is whole is settled by its shape, not
      -- its value
      if run.isEmpty then (missingDigit body, ⟨rest, by simp; omega⟩)
      else
        let e : Int := if minus then -(decimal run : Int) else decimal run
        (.number ⟨negative, digits, scale + e, false⟩, ⟨rest, by simp; omega⟩)
    else (.number ⟨negative, digits, scale, whole⟩, ⟨c :: cs, Nat.le_refl _⟩)

/-- The fraction and the exponent of a number whose integer part is known. -/
def scanFraction (negative : Bool) (integer : List Char) (cs : List Char) : Scan Draft cs :=
  match cs with
  | '.' :: cs =>
    let (run, ⟨rest, hr⟩) := spanDigits cs
    if run.isEmpty then (missingDigit cs, ⟨rest, by simp; omega⟩)
    else
      let (d, ⟨rest', hr'⟩) :=
        scanExponent negative (decimal (integer ++ run)) (-(run.length : Int)) false rest
      (d, ⟨rest', by simp; omega⟩)
  | cs => scanExponent negative (decimal integer) 0 true cs

/-- A number whose sign, if any, stands before `first`. -/
def scanMagnitude (negative : Bool) (first : Char) (cs : List Char) : Scan Draft cs :=
  if first = '0' then
    if (cs.head?.map Char.isDigit).getD false then
      -- a leading zero stands alone: `007` is no number
      (.garbled .malformed .malformed, ⟨cs, Nat.le_refl _⟩)
    else scanFraction negative ['0'] cs
  else if first.isDigit then
    let (run, ⟨rest, hr⟩) := spanDigits cs
    let (d, ⟨rest', hr'⟩) := scanFraction negative (first :: run) rest
    (d, ⟨rest', Nat.le_trans hr' hr⟩)
  else (.garbled .malformed .malformed, ⟨cs, Nat.le_refl _⟩)

/-! ### Strings -/

/-- Whether fewer than four bytes are left, so that an escape of four digits runs over the end. -/
def underFourBytes (cs : List Char) : Bool :=
  (cs.take 4).foldl (fun n c => n + c.utf8Size) 0 < 4

/-- Whether a code unit opens a surrogate pair. -/
def isHighSurrogate (n : Nat) : Bool := 0xD800 ≤ n && n ≤ 0xDBFF

/-- Whether a code unit closes a surrogate pair. -/
def isLowSurrogate (n : Nat) : Bool := 0xDC00 ≤ n && n ≤ 0xDFFF

/-- The character that a surrogate pair stands for. -/
def pairedChar (high low : Nat) : Char :=
  Char.ofNat (0x10000 + (high - 0xD800) * 1024 + (low - 0xDC00))

/-- The character that a one-letter escape stands for. -/
def escapedChar? : Char → Option Char
  | '"' => some '"'
  | '\\' => some '\\'
  | '/' => some '/'
  | 'b' => some '\x08'
  | 'f' => some '\x0c'
  | 'n' => some '\n'
  | 'r' => some '\r'
  | 't' => some '\t'
  | _ => none

/-- The key that a string makes which breaks for the given reason. A surrogate without partner
before the break is what a reader meets first. -/
def brokenText (unpaired : Bool) (why : Reject) : Key :=
  .unreadable (if unpaired then .malformed else why) why

/-- The key that a string makes which ends properly. -/
def closedText (unpaired : Bool) (content : List Char) : Key :=
  if unpaired then .unpaired else .text (String.ofList content.reverse)

/-- The characters of a string after its opening quote. `content` is what was read so far, last
character first; `unpaired` says whether a surrogate without partner was met. -/
def scanText (unpaired : Bool) (content : List Char) : (cs : List Char) → Scan Key cs
  | [] => (brokenText unpaired .truncated, ⟨[], Nat.le_refl _⟩)
  | '"' :: cs => (closedText unpaired content, ⟨cs, Nat.le_succ _⟩)
  | '\\' :: 'u' :: a :: b :: c :: d :: cs =>
    match hex4? a b c d with
    | none => (brokenText unpaired .malformed, ⟨cs, by simp; omega⟩)
    | some high =>
      -- half of a character outside the basic plane: the other half has to follow as an escape of
      -- its own
      if isHighSurrogate high then
        match cs with
        | '\\' :: 'u' :: a' :: b' :: c' :: d' :: cs' =>
          match hex4? a' b' c' d' with
          | none => (brokenText unpaired .malformed, ⟨cs', by simp; omega⟩)
          | some low =>
            let (key, ⟨rest, h⟩) :=
              if isLowSurrogate low then scanText unpaired (pairedChar high low :: content) cs'
              else scanText true content cs'
            (key, ⟨rest, by simp; omega⟩)
        | cs =>
          let ends := cs.isEmpty || cs == ['\\'] || cs.take 2 == ['\\', 'u']
          let (key, ⟨rest, h⟩) := scanText (unpaired || !ends) content cs
          (key, ⟨rest, by simp; omega⟩)
      else
        let (key, ⟨rest, h⟩) :=
          scanText (unpaired || isLowSurrogate high) (Char.ofNat high :: content) cs
        (key, ⟨rest, by simp; omega⟩)
  | '\\' :: 'u' :: cs =>
    (brokenText unpaired (if underFourBytes cs then .truncated else .malformed),
      ⟨cs, by simp; omega⟩)
  | ['\\'] => (brokenText unpaired .truncated, ⟨[], by simp⟩)
  -- a short escape, if it is one of those that there are
  | '\\' :: e :: cs =>
    match escapedChar? e with
    | none => (brokenText unpaired .malformed, ⟨cs, by simp; omega⟩)
    | some c =>
      let (key, ⟨rest, h⟩) := scanText unpaired (c :: content) cs
      (key, ⟨rest, by simp; omega⟩)
  | c :: cs =>
    if c.toNat < 0x20 then (brokenText unpaired .malformed, ⟨cs, Nat.le_succ _⟩)
    else
      let (key, ⟨rest, h⟩) := scanText unpaired (c :: content) cs
      (key, ⟨rest, Nat.le_succ_of_le h⟩)

/-! ### The text as a whole -/

/-- The scalar that begins with a given character. -/
def scanScalar (c : Char) (cs : List Char) : Scan Draft cs :=
  match c with
  | 'n' => scanWord .null ['u', 'l', 'l'] cs
  | 't' => scanWord (.bool true) ['r', 'u', 'e'] cs
  | 'f' => scanWord (.bool false) ['a', 'l', 's', 'e'] cs
  -- a sign stands in front of digits only
  | '-' =>
    match cs with
    | [] => (missingDigit [], ⟨[], Nat.le_refl _⟩)
    | first :: cs =>
      let (d, ⟨rest, h⟩) := scanMagnitude true first cs
      (d, ⟨rest, Nat.le_succ_of_le h⟩)
  | c =>
    if c.isDigit then scanMagnitude false c cs
    else (.broken .malformed, ⟨cs, Nat.le_refl _⟩)

/-- The lexeme at the front of a text that does not begin with white space. -/
def scan (c : Char) (cs : List Char) : Scan Lexeme cs :=
  match c with
  | '[' => (.listStart, ⟨cs, Nat.le_refl _⟩)
  | ']' => (.listEnd, ⟨cs, Nat.le_refl _⟩)
  | '\x7b' => (.objectStart, ⟨cs, Nat.le_refl _⟩)
  | '\x7d' => (.objectEnd, ⟨cs, Nat.le_refl _⟩)
  | ',' => (.comma, ⟨cs, Nat.le_refl _⟩)
  | ':' => (.colon, ⟨cs, Nat.le_refl _⟩)
  | '"' =>
    let (key, rest) := scanText false [] cs
    (.text key, rest)
  -- whatever starts none of these is a number, a word or broken
  | c =>
    let (d, rest) := scanScalar c cs
    (.scalar d, rest)

/-- The lexemes of a text. -/
def lexemes : List Char → List Lexeme
  | [] => []
  | c :: cs =>
    if isBlank c then lexemes cs
    else
      let (l, ⟨rest, _⟩) := scan c cs
      l :: lexemes rest
termination_by cs => cs.length
decreasing_by
  · -- every step takes at least the character it looked at
    simp
  · simp; omega

end Lexeme

end TemporalPlanning
