import Mathlib.Tactic.IntervalCases
import TemporalPlanning.Json.Lexeme
import TemporalPlanning.Json.Printer

/-!
# Lexemes of written documents

What is written for a string, an integer or a word is one lexeme, whatever follows it
(`Lexeme.lexemes_quote`, `Lexeme.lexemes_int`). An integer has to end: no digit, point or exponent
may come next (`Lexeme.Ends`).
-/

namespace TemporalPlanning

namespace Lexeme

variable {cs rest : List Char} {unpaired negative : Bool} {content : List Char}

/-- What is left of a result when it is forgotten that the text does not get longer. -/
def Scan.plain {α : Type} (s : Scan α cs) : α × List Char := (s.1, s.2.1)

/-- The first lexeme is scanned from the first character on if that is no white space. -/
theorem lexemes_cons {c : Char} (h : isBlank c = false) :
    lexemes (c :: cs) = (scan c cs).plain.1 :: lexemes (scan c cs).plain.2 := by
  rw [lexemes, h]
  rfl

/-! ### Strings -/

/-- A character is escaped by a letter or by its number, or it stands for itself. -/
theorem escape_cases (c : Char) :
    (∃ e, e ≠ 'u' ∧ escapedChar? e = some c ∧ Json.escape c = ['\\', e]) ∨
    (c.toNat < 32 ∧ Json.escape c =
      ['\\', 'u', '0', '0', Json.hexDigit (c.toNat / 16), Json.hexDigit (c.toNat % 16)]) ∨
    (c ≠ '"' ∧ c ≠ '\\' ∧ ¬ c.toNat < 32 ∧ Json.escape c = [c]) := by
  generalize hout : Json.escape c = out
  unfold Json.escape at hout
  split at hout
  -- the last branch holds the characters without a letter of their own
  case h_8 hquote hbackslash _ _ _ _ _ =>
    split at hout
    next hc => exact .inr (.inl ⟨hc, hout.symm⟩)
    next hc => exact .inr (.inr ⟨hquote, hbackslash, hc, hout.symm⟩)
  all_goals exact .inl ⟨_, by decide, by rfl, hout.symm⟩

theorem scanText_letter {e c : Char} (he : e ≠ 'u') (hc : escapedChar? e = some c) :
    (scanText unpaired content ('\\' :: e :: rest)).plain =
      (scanText unpaired (c :: content) rest).plain := by
  rw [scanText]
  · rw [hc]
    rfl
  · rintro a b c d cs rfl
    exact absurd rfl he
  · exact he

/-- The four digits that are written for a control character are read as its number; there are 32 of
them to try. -/
theorem hex4?_hexDigit : ∀ n < 32,
    hex4? '0' '0' (Json.hexDigit (n / 16)) (Json.hexDigit (n % 16)) = some n := by
  decide

/-- A control character that was written by its number is read back. The program writes such a
character as `\u00` with two hexadecimal digits, and never as half of a pair of surrogates. -/
theorem scanText_number {c : Char} (hc : c.toNat < 32) :
    (scanText unpaired content ('\\' :: 'u' :: '0' :: '0' :: Json.hexDigit (c.toNat / 16) ::
      Json.hexDigit (c.toNat % 16) :: rest)).plain =
      (scanText unpaired (c :: content) rest).plain := by
  -- a control character is far below the surrogates, so no second escape is looked for
  have hhigh : isHighSurrogate c.toNat = false := by
    simp only [isHighSurrogate, Bool.and_eq_false_iff, decide_eq_false_iff_not]
    omega
  have hlow : isLowSurrogate c.toNat = false := by
    simp only [isLowSurrogate, Bool.and_eq_false_iff, decide_eq_false_iff_not]
    omega
  rw [scanText, hex4?_hexDigit c.toNat hc]
  simp [hhigh, hlow, Scan.plain, Char.ofNat_toNat]

theorem scanText_char {c : Char} (hquote : c ≠ '"') (hbackslash : c ≠ '\\')
    (hc : ¬ c.toNat < 32) :
    (scanText unpaired content (c :: rest)).plain =
      (scanText unpaired (c :: content) rest).plain := by
  rw [scanText]
  · rw [if_neg hc]
    rfl
  all_goals simp_all

/-- One character is read back, however it is written. Most characters stand for themselves, a few
have a letter behind a backslash, and the rest are written by number. -/
theorem scanText_escape (c : Char) :
    (scanText unpaired content (Json.escape c ++ rest)).plain =
      (scanText unpaired (c :: content) rest).plain := by
  obtain ⟨e, he, hc, hescape⟩ | ⟨hc, hescape⟩ | ⟨hquote, hbackslash, hc, hescape⟩ :=
    escape_cases c
  · rw [hescape]
    exact scanText_letter he hc
  · rw [hescape]
    exact scanText_number hc
  · rw [hescape]
    exact scanText_char hquote hbackslash hc

/-- A string is read up to its closing quote. -/
theorem scanText_flatMap_escape (s : List Char) :
    (scanText unpaired content (s.flatMap Json.escape ++ '"' :: rest)).plain =
      (closedText unpaired (s.reverse ++ content), rest) := by
  induction s generalizing content with
  | nil => rfl
  | cons c s ih =>
    rw [List.flatMap_cons, List.append_assoc, scanText_escape, ih, List.reverse_cons,
      List.append_assoc]
    rfl

/-- A string is one lexeme. The characters between the quotes are collected in reverse and turned
around at the end, which the statement about `closedText` accounts for. -/
theorem lexemes_quote (s : String) :
    lexemes ((Json.quote s).toList ++ rest) = .text (.text s) :: lexemes rest := by
  have htext : (Json.quote s).toList ++ rest =
      '"' :: (s.toList.flatMap Json.escape ++ '"' :: rest) := by
    simp [Json.quote]
  have hkey : closedText false (s.toList.reverse ++ []) = .text s := by
    simp [closedText]
  rw [htext, lexemes_cons (by decide)]
  show Lexeme.text (scanText false [] _).plain.1 :: lexemes (scanText false [] _).plain.2 = _
  rw [scanText_flatMap_escape, hkey]

/-! ### Integers -/

/-- A number does not go on. -/
def Ends (cs : List Char) : Prop :=
  ∀ c ∈ cs.head?, c.isDigit = false ∧ c ≠ '.' ∧ c ≠ 'e' ∧ c ≠ 'E'

/-- A run of digits ends where the first other character is. The condition on `rest` is on its first
character only, so that it may be empty. -/
theorem spanDigits_append {run : List Char} (hrun : ∀ c ∈ run, c.isDigit = true)
    (hrest : ∀ c ∈ rest.head?, c.isDigit = false) :
    (spanDigits (run ++ rest)).plain = (run, rest) := by
  -- the run ends where `rest` begins, because `rest` does not begin with a digit
  have hdrop : rest.dropWhile Char.isDigit = rest := by
    cases rest with
    | nil => rfl
    | cons c cs => exact List.dropWhile_cons_of_neg (by simp [hrest c rfl])
  have htake : rest.takeWhile Char.isDigit = [] := by
    cases rest with
    | nil => rfl
    | cons c cs => exact List.takeWhile_cons_of_neg (by simp [hrest c rfl])
  -- the span is what `takeWhile` and `dropWhile` cut off
  show ((run ++ rest).takeWhile _, (run ++ rest).dropWhile _) = _
  rw [List.takeWhile_append_of_pos hrun, List.dropWhile_append_of_pos hrun, hdrop, htake,
    List.append_nil]

/-- Decimal digits do not begin with 0, except those of 0. The induction takes off the last digit,
so that the first one is that of a smaller number. -/
theorem head_toDigits_ne_zero {n : Nat} (hn : 0 < n) :
    ∀ c ∈ (Nat.toDigits 10 n).head?, c ≠ '0' := by
  induction n using Nat.strongRecOn with
  | ind n ih =>
    by_cases h : n < 10
    · rw [Nat.toDigits_of_lt_base h]
      rintro c hc
      obtain rfl := Option.some.inj hc
      -- one digit, and the number is not 0
      interval_cases n <;> decide
    · -- the first digit is that of the tenth part, which is not 0 either
      have hhead := ih (n / 10) (by omega) (by omega)
      rw [Nat.toDigits_of_base_le (by decide) (by omega)]
      cases hdigits : Nat.toDigits 10 (n / 10) with
      | nil => exact absurd hdigits Nat.toDigits_ne_nil
      | cons d ds => exact fun c hc => hhead c (by rw [hdigits]; exact hc)

/-- The digits of a number, read one after the other, make up the number. -/
theorem decimal_toDigits (n : Nat) : decimal (Nat.toDigits 10 n) = n :=
  Nat.ofDigitChars_toDigits (by decide) (by decide)

/-- A number that ends behind its integer part has no fraction and no exponent. What `Ends` excludes
is exactly what could continue the number: a digit, a point, and the letter of an exponent. -/
theorem scanFraction_of_ends {integer : List Char} (h : Ends rest) :
    (scanFraction negative integer rest).plain =
      (.number ⟨negative, decimal integer, 0, true⟩, rest) := by
  cases rest with
  | nil => rfl
  | cons c cs =>
    -- what follows is neither a point nor the mark of an exponent
    obtain ⟨-, hpoint, he, hE⟩ := h c rfl
    have hexponent : scanExponent negative (decimal integer) 0 true (c :: cs) =
        (.number ⟨negative, decimal integer, 0, true⟩, ⟨c :: cs, Nat.le_refl _⟩) :=
      if_neg (not_or.mpr ⟨he, hE⟩)
    rw [scanFraction, hexponent]
    · rfl
    · rintro cs' heq
      exact hpoint (List.cons.inj heq).1

/-- The digits of a number are read, whatever its sign. The number zero is the one whose first digit
is `0`, and no digit may follow it; any other number is a run of digits that `rest` does not
continue. -/
theorem scanMagnitude_toDigits (negative : Bool) {n : Nat} {first : Char} {tail : List Char}
    (hdigits : Nat.toDigits 10 n = first :: tail) (h : Ends rest) :
    (scanMagnitude negative first (tail ++ rest)).plain =
      (.number ⟨negative, n, 0, true⟩, rest) := by
  have hdecimal : decimal (first :: tail) = n := hdigits ▸ decimal_toDigits n
  have hall : ∀ c ∈ first :: tail, c.isDigit = true := fun c hc =>
    Nat.isDigit_of_mem_toDigits (by decide) (by decide) (hdigits ▸ hc)
  obtain ⟨hfirst, htail⟩ := List.forall_mem_cons.mp hall
  -- no digit follows, as the text ends or goes on with a mark or a blank
  have hrest : ∀ c ∈ rest.head?, c.isDigit = false := fun c hc => (h c hc).1
  unfold scanMagnitude
  rcases n.eq_zero_or_pos with rfl | hn
  · -- nothing but the number 0 is written with a leading 0
    rw [Nat.toDigits_zero] at hdigits
    obtain ⟨rfl, rfl⟩ := List.cons.inj hdigits
    have hnext : (rest.head?.map Char.isDigit).getD false = false := by
      cases hhead : rest.head? with
      | none => rfl
      | some c => exact hrest c hhead
    rw [if_pos rfl, List.nil_append, hnext]
    exact scanFraction_of_ends h
  · -- any other number starts with another digit, and its run of digits is taken whole
    have hne : first ≠ '0' := head_toDigits_ne_zero hn first (by rw [hdigits]; rfl)
    have hspan := spanDigits_append htail hrest
    rw [if_neg hne, if_pos hfirst, ← hdecimal, ← scanFraction_of_ends h]
    rcases hrun : spanDigits (tail ++ rest) with ⟨run, rest', hlength⟩
    rw [hrun] at hspan
    clear hrun
    obtain ⟨hrun, hrest'⟩ : run = tail ∧ rest' = rest := Prod.mk.inj hspan
    subst hrun hrest'
    rfl

/-- A digit is none of the characters that open something else. -/
theorem ne_of_isDigit {c d : Char} (hc : c.isDigit = true) (hd : d.isDigit = false) : c ≠ d := by
  rintro rfl
  exact absurd hc (by simp [hd])

theorem scan_digit {c : Char} (hc : c.isDigit = true) : (scan c cs).plain =
    (.scalar (scanMagnitude false c cs).plain.1, (scanMagnitude false c cs).plain.2) := by
  have hne : ∀ d, d.isDigit = false → c ≠ d := fun _ => ne_of_isDigit hc
  have hscalar : scanScalar c cs = scanMagnitude false c cs := by
    rw [scanScalar, if_pos hc]
    all_goals exact hne _ (by decide)
  rw [scan, hscalar]
  · rfl
  all_goals exact hne _ (by decide)

theorem scan_minus {first : Char} : (scan '-' (first :: cs)).plain =
    (.scalar (scanMagnitude true first cs).plain.1, (scanMagnitude true first cs).plain.2) := by
  rw [scan, scanScalar]
  · rfl
  all_goals decide

/-- An integer that ends is one lexeme. The sign is a character in front of the digits, so that both
signs come down to reading the absolute value. -/
theorem lexemes_int (i : Int) (h : Ends rest) :
    lexemes ((Json.writeNumeral (.ofInt i)).toList ++ rest) =
      .scalar (.number (.ofInt i)) :: lexemes rest := by
  obtain ⟨first, tail, hdigits⟩ : ∃ first tail, Nat.toDigits 10 i.natAbs = first :: tail :=
    List.exists_cons_of_ne_nil Nat.toDigits_ne_nil
  have hread := fun negative => scanMagnitude_toDigits negative hdigits h
  -- the sign is written apart from the digits
  by_cases hi : i < 0
  · have htext : (Json.writeNumeral (.ofInt i)).toList ++ rest =
        '-' :: first :: (tail ++ rest) := by
      simp [Json.writeNumeral, Numeral.ofInt, hi, hdigits]
    rw [htext, lexemes_cons (by decide), scan_minus, hread, Numeral.ofInt, decide_eq_true hi]
  · have htext : (Json.writeNumeral (.ofInt i)).toList ++ rest = first :: (tail ++ rest) := by
      simp [Json.writeNumeral, Numeral.ofInt, hi, hdigits]
    have hfirst : first.isDigit = true := by
      refine Nat.isDigit_of_mem_toDigits (b := 10) (n := i.natAbs) (by decide) (by decide) ?_
      rw [hdigits]
      exact List.mem_cons_self
    have hne : ∀ d, d.isDigit = false → first ≠ d := fun _ => ne_of_isDigit hfirst
    -- the first digit is no white space and none of the marks that are tested for before
    have hblank : isBlank first = false := by
      simp [isBlank, hne]
    rw [htext, lexemes_cons hblank, scan_digit hfirst, hread, Numeral.ofInt, decide_eq_false hi]

/-! ### Words -/

/-- The word for the null value is one lexeme. -/
theorem lexemes_null : lexemes ("null".toList ++ cs) = .scalar .null :: lexemes cs := by
  show lexemes ('n' :: 'u' :: 'l' :: 'l' :: cs) = _
  rw [lexemes_cons (by decide)]
  rfl

theorem lexemes_bool (b : Bool) :
    lexemes ((if b then "true" else "false").toList ++ cs) = .scalar (.bool b) :: lexemes cs := by
  cases b with
  | true =>
    show lexemes ('t' :: 'r' :: 'u' :: 'e' :: cs) = _
    rw [lexemes_cons (by decide)]
    rfl
  | false =>
    show lexemes ('f' :: 'a' :: 'l' :: 's' :: 'e' :: cs) = _
    rw [lexemes_cons (by decide)]
    rfl

/-! ### Brackets, separators and white space -/

/-- The characters that are lexemes of their own. -/
inductive Mark : Char → Lexeme → Prop
  | listStart : Mark '[' .listStart
  | listEnd : Mark ']' .listEnd
  | objectStart : Mark '\x7b' .objectStart
  | objectEnd : Mark '\x7d' .objectEnd
  | comma : Mark ',' .comma
  | colon : Mark ':' .colon

theorem Mark.lexemes_cons {c : Char} {l : Lexeme} (h : Mark c l) (cs : List Char) :
    lexemes (c :: cs) = l :: lexemes cs := by
  cases h <;>
  · rw [Lexeme.lexemes_cons (by decide)]
    rfl

/-- A number or word in front of a mark has ended. -/
theorem Mark.ends {c : Char} {l : Lexeme} (h : Mark c l) (cs : List Char) : Ends (c :: cs) := by
  intro c' hc'
  obtain rfl := Option.some.inj hc'
  cases h <;> decide

/-- White space only. -/
def Blank (cs : List Char) : Prop := ∀ c ∈ cs, isBlank c = true

theorem Blank.lexemes_append {b : List Char} (h : Blank b) : lexemes (b ++ cs) = lexemes cs := by
  induction b with
  | nil => rfl
  | cons c b ih =>
    obtain ⟨hc, hb⟩ := List.forall_mem_cons.mp h
    rw [List.cons_append, lexemes, if_pos hc, ih hb]

/-- White space ends a number, or leaves this to what follows. It lets the layout between two parts
of a document be chosen freely. -/
theorem Blank.ends_append {b : List Char} (h : Blank b) (hcs : Ends cs) : Ends (b ++ cs) := by
  cases b with
  | nil => exact hcs
  | cons c b =>
    intro c' hc'
    obtain rfl := Option.some.inj hc'
    have hblank := h c List.mem_cons_self
    simp only [isBlank, Bool.or_eq_true, decide_eq_true_eq] at hblank
    -- none of the four blanks can continue a number
    obtain ((rfl | rfl) | rfl) | rfl := hblank <;> decide

end Lexeme

end TemporalPlanning
