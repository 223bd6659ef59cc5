import LiteOLAP.ForStd.Except
import LiteOLAP.Native.Lexer

/-!
# Tokens, written and read

A token is written by its text, a keyword in any case and a string in quotes, and between two
tokens stands a separator: whitespace, and perhaps a comment and more whitespace. The lexer reads
each token on its own, since what is behind it begins with whitespace or is empty. Only the sign of
a number depends on the token in front, which must not be the end of a value.

## Key results

- `Lexer.scanToken_written`: one written token is read back
- `Lexer.scanToken_sound`: every token that is read is the token of some text
- `Lexer.tokenize_rendered`: tokens with separators between them are read back
- `Lexer.tokenize_again`: reading, writing and reading again changes nothing
-/

namespace LiteOLAP

open Bytes (ofAscii)

namespace Lexer

/-! ## Texts of tokens -/

/-- A word that is no keyword in any case. -/
def IsIdentifier (s : Bytes) : Prop :=
  s.head?.any isIdentStart ∧ (∀ c ∈ s, isIdentCont c) ∧ Keyword.ofText (toUpper s) = none

/-- Digits behind an optional minus: the texts of the lexer's integers. -/
def IsIntegerText (text : Bytes) : Prop :=
  ∃ digits, digits ≠ [] ∧ (∀ c ∈ digits, isDigit c) ∧ (text = digits ∨ text = 45 :: digits)

/-- Digits, a point and digits, behind an optional minus: the texts of the lexer's floats. -/
def IsFloatText (text : Bytes) : Prop :=
  ∃ digits fraction, digits ≠ [] ∧ (∀ c ∈ digits, isDigit c) ∧ (∀ c ∈ fraction, isDigit c) ∧
    (text = digits ++ 46 :: fraction ∨ text = 45 :: (digits ++ 46 :: fraction))

/-- The token is one that the lexer makes of a text. -/
def Lexes (stod : Bytes → Option Double) : Token → Prop
  | .identifier s => IsIdentifier s
  | .integer text v => IsIntegerText text ∧ stoll text = some v
  | .float text d => IsFloatText text ∧ stod text = some d
  | .keyword _ | .string _ | .punct _ => True
  | .eof => False

/-- A numeric literal with a minus does not follow the end of a value, where the minus would be an
    operator. -/
def Follows (prev : Option Token) : Token → Prop
  | .integer text _ | .float text _ => text.head? = some 45 → prevIsValue prev = false
  | _ => True

/-- A string literal between its quotes: quotes are doubled. -/
def quoteString (s : Bytes) : Bytes := s.flatMap fun c => if c = 39 then [39, 39] else [c]

/-- The ways to write a token: keywords in any case, strings in quotes, all others by their
    text. -/
def Writes : Token → Bytes → Prop
  | .keyword k, w => toUpper w = k.text
  | .string s, w => w = 39 :: (quoteString s ++ [39])
  | t, w => w = t.text

/-- What may stand between two tokens: whitespace, and behind it a comment and more whitespace. -/
def IsSeparator (sep : Bytes) : Prop :=
  ∃ spaces, spaces ≠ [] ∧ (∀ c ∈ spaces, isSpace c) ∧
    (sep = spaces ∨ ∃ comment more, (∀ c ∈ comment, c ≠ 10) ∧ (∀ c ∈ more, isSpace c) ∧
      sep = spaces ++ 45 :: 45 :: (comment ++ 10 :: more))

/-- The tokens behind others, each after a separator. -/
inductive RenderedRest : List Token → Bytes → Prop where
  | nil : RenderedRest [] []
  | cons {t : Token} {ts : List Token} {sep w rest : Bytes} (hsep : IsSeparator sep)
      (hw : Writes t w) (hrest : RenderedRest ts rest) :
      RenderedRest (t :: ts) (sep ++ (w ++ rest))

/-- A way to write tokens with separators between them. -/
inductive Rendered : List Token → Bytes → Prop where
  | nil : Rendered [] []
  | cons {t : Token} {ts : List Token} {w rest : Bytes} (hw : Writes t w)
      (hrest : RenderedRest ts rest) : Rendered (t :: ts) (w ++ rest)

/-! ## Decimal numbers -/

theorem isDigit_ofNat {c : Char} (h : c.isDigit) : isDigit (UInt8.ofNat c.toNat) ∧
    (UInt8.ofNat c.toNat).toNat = c.toNat := by
  have hbounds : 48 ≤ c.toNat ∧ c.toNat ≤ 57 := by
    rw [Char.isDigit, Bool.and_eq_true, decide_eq_true_eq, decide_eq_true_eq] at h
    exact ⟨UInt32.le_iff_toNat_le.1 h.1, UInt32.le_iff_toNat_le.1 h.2⟩
  have hnat : (UInt8.ofNat c.toNat).toNat = c.toNat := by
    rw [UInt8.toNat_ofNat']
    omega
  refine ⟨?_, hnat⟩
  simp only [isDigit, Bool.and_eq_true, decide_eq_true_eq, UInt8.le_iff_toNat_le, hnat]
  exact hbounds

theorem ofAscii_toString_nat (n : Nat) :
    ofAscii (toString n) = (Nat.toDigits 10 n).map fun c => UInt8.ofNat c.toNat := by
  rw [Nat.toString_eq_ofList_toDigits, ofAscii, String.toList_ofList]

/-- A number in decimal is digits, and at least one. -/
theorem isDigit_toString (n : Nat) : ∀ c ∈ ofAscii (toString n), isDigit c := by
  intro c hc
  rw [ofAscii_toString_nat, List.mem_map] at hc
  obtain ⟨d, hd, rfl⟩ := hc
  exact (isDigit_ofNat (Nat.isDigit_of_mem_toDigits (by decide) (by decide) hd)).1

theorem toString_nat_ne_nil (n : Nat) : ofAscii (toString n) ≠ [] := by
  rw [ofAscii_toString_nat, ne_eq, List.map_eq_nil_iff]
  exact Nat.toDigits_ne_nil

/-- The digits stand for the number. -/
theorem digitsValue_toString (n : Nat) : digitsValue (ofAscii (toString n)) = n := by
  have hfold : ∀ (cs : List Char) (m : Nat), (∀ c ∈ cs, c.isDigit) →
      (cs.map fun c => UInt8.ofNat c.toNat).foldl (fun n d => 10 * n + (d.toNat - 48)) m =
        Nat.ofDigitChars 10 cs m := by
    intro cs
    induction cs with
    | nil => intro m _; rfl
    | cons c cs ih =>
      intro m hdigits
      have hc := (isDigit_ofNat (hdigits c List.mem_cons_self)).2
      rw [List.map_cons, List.foldl_cons, hc, Nat.ofDigitChars_cons,
        ih _ fun c hc => hdigits c (List.mem_cons_of_mem _ hc)]
      rfl
  rw [digitsValue, ofAscii_toString_nat, hfold _ _ fun c hc =>
    Nat.isDigit_of_mem_toDigits (by decide) (by decide) hc]
  exact Nat.ofDigitChars_ten_toDigits

/-- A number that is printed with its sign. -/
theorem toString_int (v : Int) : ofAscii (toString v) =
    if v < 0 then 45 :: ofAscii (toString v.natAbs) else ofAscii (toString v.natAbs) := by
  cases v with
  | ofNat n => rfl
  | negSucc n =>
    have hneg : Int.negSucc n < 0 := Int.negSucc_lt_zero n
    rw [if_pos hneg]
    show ofAscii ("-" ++ toString (n + 1)) = _
    rw [ofAscii, String.toList_append, List.map_append]
    rfl

theorem head_ne_of_isDigit {digits : Bytes} (h : ∀ c ∈ digits, isDigit c) :
    digits.head? ≠ some 45 := by
  intro hhead
  have hdigit := h 45 (List.mem_of_mem_head? hhead)
  exact absurd hdigit (by decide)

theorem signedValue_nonneg {digits : Bytes} (h : digits.head? ≠ some 45) :
    signedValue digits = digitsValue digits := by
  unfold signedValue
  split
  · exact absurd rfl h
  · rfl

theorem signedValue_toString (v : Int) : signedValue (ofAscii (toString v)) = v := by
  rw [toString_int]
  split_ifs with hneg
  · have hvalue := Int.ofNat_natAbs_of_nonpos hneg.le
    rw [signedValue, digitsValue_toString]
    omega
  · rw [signedValue_nonneg (head_ne_of_isDigit (isDigit_toString _)), digitsValue_toString]
    exact Int.natAbs_of_nonneg (by omega)

/-- `std::stoll` reads a 64-bit number back. -/
theorem stoll_toString (v : Int64) : stoll (ofAscii (toString v.toInt)) = some v := by
  rw [stoll, signedValue_toString, if_pos ⟨v.le_toInt, v.toInt_lt⟩, Int64.ofInt_toInt]

/-- A printed integer is the text of an integer literal. -/
theorem isIntegerText_toString (v : Int) : IsIntegerText (ofAscii (toString v)) := by
  refine ⟨ofAscii (toString v.natAbs), toString_nat_ne_nil _, isDigit_toString _, ?_⟩
  rw [toString_int]
  split
  · exact .inr rfl
  · exact .inl rfl

/-! ## Characters -/

section

variable {c : UInt8}

theorem isSpace_iff : isSpace c ↔ c.toNat = 32 ∨ 9 ≤ c.toNat ∧ c.toNat ≤ 13 := by
  simp [isSpace, UInt8.le_iff_toNat_le, ← UInt8.toNat_inj]

theorem isDigit_iff : isDigit c ↔ 48 ≤ c.toNat ∧ c.toNat ≤ 57 := by
  simp [isDigit, UInt8.le_iff_toNat_le]

theorem isAlpha_iff : isAlpha c ↔ 65 ≤ c.toNat ∧ c.toNat ≤ 90 ∨ 97 ≤ c.toNat ∧ c.toNat ≤ 122 := by
  simp [isAlpha, UInt8.le_iff_toNat_le]

theorem isIdentStart_iff : isIdentStart c ↔ isAlpha c ∨ c.toNat = 95 := by
  simp [isIdentStart, ← UInt8.toNat_inj]

theorem isIdentCont_iff : isIdentCont c ↔ isAlpha c ∨ isDigit c ∨ c.toNat = 95 := by
  simp [isIdentCont, ← UInt8.toNat_inj, or_assoc]

/-- What ends a token: whitespace, or the end of the text. -/
def Ends (rest : Bytes) : Prop := ∀ c ∈ rest.head?, isSpace c

theorem not_isDigit_of_isSpace (h : isSpace c) : isDigit c = false := by
  rw [isSpace_iff] at h
  rw [← Bool.not_eq_true, isDigit_iff]
  omega

theorem not_isIdentCont_of_isSpace (h : isSpace c) : isIdentCont c = false := by
  rw [isSpace_iff] at h
  rw [← Bool.not_eq_true, isIdentCont_iff, isAlpha_iff, isDigit_iff]
  omega

/-- A character that goes on with no token behind the end of one. -/
theorem Ends.head_ne {rest : Bytes} (h : Ends rest) {d : UInt8} (hd : isSpace d = false) :
    rest.head? ≠ some d := by
  intro hhead
  have hspace := h d hhead
  rw [hd] at hspace
  cases hspace

end

/-! ## Reading one token -/

section

variable {stod : Bytes → Option Double} {prev : Option Token} {t : Token} {w rest : Bytes}

/-- The characters in front that satisfy `p` are those of `xs`, where `p` fails behind them. -/
theorem takeWhile_dropWhile_append {p : UInt8 → Bool} {xs : Bytes} (h : ∀ c ∈ xs, p c)
    (hrest : ∀ c ∈ rest.head?, p c = false) :
    (xs ++ rest).takeWhile p = xs ∧ (xs ++ rest).dropWhile p = rest := by
  have hnone : rest.takeWhile p = [] ∧ rest.dropWhile p = rest := by
    cases rest with
    | nil => exact ⟨rfl, rfl⟩
    | cons c rest =>
      have hc : p c = false := hrest c rfl
      exact ⟨by rw [List.takeWhile_cons, hc]; rfl, by rw [List.dropWhile_cons, hc]; rfl⟩
  exact ⟨by rw [List.takeWhile_append_of_pos h, hnone.1, List.append_nil],
    by rw [List.dropWhile_append_of_pos h, hnone.2]⟩

theorem scanDigits_append {digits : Bytes} (h : ∀ c ∈ digits, isDigit c)
    (hrest : ∀ c ∈ rest.head?, isDigit c = false) :
    scanDigits (digits ++ rest) = (digits, rest) := by
  obtain ⟨htake, hdrop⟩ := takeWhile_dropWhile_append h hrest
  rw [scanDigits, htake, hdrop]

theorem Ends.not_isDigit (h : Ends rest) : ∀ c ∈ rest.head?, isDigit c = false :=
  fun c hc => not_isDigit_of_isSpace (h c hc)

/-- Digits alone are the text of an integer. -/
theorem scanNumber_digits {digits : Bytes} (h : ∀ c ∈ digits, isDigit c) (hrest : Ends rest) :
    scanNumber (digits ++ rest) = (digits, false, rest) := by
  have hpoint := hrest.head_ne (d := 46) (by decide)
  rw [scanNumber, scanDigits_append h hrest.not_isDigit]
  dsimp only
  split
  · exact absurd rfl hpoint
  · rfl

/-- Digits with a point among them are the text of a float. -/
theorem scanNumber_point {digits fraction : Bytes} (h : ∀ c ∈ digits, isDigit c)
    (hfraction : ∀ c ∈ fraction, isDigit c) (hrest : Ends rest) :
    scanNumber (digits ++ 46 :: fraction ++ rest) = (digits ++ 46 :: fraction, true, rest) := by
  have hpoint : ∀ c ∈ (46 :: (fraction ++ rest)).head?, isDigit c = false := by
    intro c hc
    obtain rfl : 46 = c := by simpa using hc
    decide
  rw [List.append_assoc, List.cons_append, scanNumber, scanDigits_append h hpoint]
  show (digits ++ 46 :: (scanDigits (fraction ++ rest)).1, true, (scanDigits (fraction ++ rest)).2) = _
  rw [scanDigits_append hfraction hrest.not_isDigit]

/-- One token of digits, with a minus that is no operator: what `scanToken` does with it. -/
theorem scanToken_number {digits text : Bytes} {isFloat : Bool}
    (hdigit : digits.head?.any isDigit)
    (hscan : scanNumber (digits ++ rest) = (digits, isFloat, rest))
    (htext : text = digits ∨ text = 45 :: digits ∧ prevIsValue prev = false)
    (htoken : numberToken stod text isFloat = .ok t) :
    ∃ c cs, text = c :: cs ∧ scanToken stod prev c (cs ++ rest) = .ok (some t, rest) := by
  obtain ⟨d, ds, rfl⟩ : ∃ d ds, digits = d :: ds := by
    cases digits with
    | nil => simp at hdigit
    | cons d ds => exact ⟨d, ds, rfl⟩
  replace hdigit : isDigit d := by simpa using hdigit
  have hbounds := isDigit_iff.1 hdigit
  rcases htext with rfl | ⟨rfl, hprev⟩
  · have hspace : ¬ isSpace d := by
      rw [isSpace_iff]
      omega
    have hminus : d ≠ 45 := by
      rintro rfl
      exact absurd hdigit (by decide)
    have hquote : d ≠ 39 := by
      rintro rfl
      exact absurd hdigit (by decide)
    refine ⟨d, ds, rfl, ?_⟩
    rw [scanToken, if_neg hspace, if_neg fun h => hminus h.1, if_neg hquote, if_pos hdigit,
      ← List.cons_append, hscan]
    dsimp only
    rw [htoken]
    rfl
  · have hcomment : d ≠ 45 := by
      rintro rfl
      exact absurd hdigit (by decide)
    refine ⟨45, d :: ds, rfl, ?_⟩
    rw [scanToken, if_neg (by decide), if_neg fun h => hcomment (by simpa using h.2),
      if_neg (by decide), if_neg (by decide), if_pos ⟨rfl, by simpa using hdigit, by simp [hprev]⟩,
      hscan]
    dsimp only
    rw [htoken]
    rfl

variable (stod prev) in
/-- A word is read as a whole. -/
theorem scanToken_word (hstart : w.head?.any isIdentStart) (hall : ∀ c ∈ w, isIdentCont c)
    (hrest : Ends rest) :
    ∃ c cs, w = c :: cs ∧ scanToken stod prev c (cs ++ rest) = .ok (some (wordToken w), rest) := by
  obtain ⟨c, cs, rfl⟩ : ∃ c cs, w = c :: cs := by
    cases w with
    | nil => simp at hstart
    | cons c cs => exact ⟨c, cs, rfl⟩
  replace hstart : isIdentStart c := by simpa using hstart
  have hbounds := hstart
  rw [isIdentStart_iff, isAlpha_iff] at hbounds
  have hspace : ¬ isSpace c := by
    rw [isSpace_iff]
    omega
  have hminus : c ≠ 45 := by
    rintro rfl
    exact absurd hstart (by decide)
  have hquote : c ≠ 39 := by
    rintro rfl
    exact absurd hstart (by decide)
  have hdigit : ¬ isDigit c := by
    rw [isDigit_iff]
    omega
  obtain ⟨htake, hdrop⟩ := takeWhile_dropWhile_append hall fun d hd =>
    not_isIdentCont_of_isSpace (hrest d hd)
  refine ⟨c, cs, rfl, ?_⟩
  rw [scanToken, if_neg hspace, if_neg fun h => hminus h.1, if_neg hquote, if_neg hdigit,
    if_neg fun h => hminus h.1, if_pos hstart, ← List.cons_append, htake, hdrop]

/-- A string literal is read back without its quotes. -/
theorem scanString_quoteString (s : Bytes) (hrest : Ends rest) :
    scanString (quoteString s ++ 39 :: rest) = some (s, rest) := by
  induction s with
  | nil =>
    have hquote := hrest.head_ne (d := 39) (by decide)
    exact scanString.eq_3 rest fun rest' h => hquote (by rw [h]; rfl)
  | cons c s ih =>
    have hcons : quoteString (c :: s) ++ 39 :: rest =
        (if c = 39 then [39, 39] else [c]) ++ (quoteString s ++ 39 :: rest) := by
      rw [quoteString, List.flatMap_cons, ← quoteString, List.append_assoc]
    rw [hcons]
    split_ifs with hc
    · rw [hc, List.cons_append, List.cons_append, List.nil_append, scanString, ih]
      rfl
    · rw [List.cons_append, List.nil_append, scanString.eq_4, ih]
      · rfl
      · exact fun _ h => absurd h hc
      · exact hc

/-- Behind one character and the end of a token there is no token of two characters. -/
theorem scanPunct_ends (c : UInt8) (hrest : Ends rest) :
    scanPunct c rest = (Punct.singles.find? fun p => p.text == [c]).map fun p => (p, rest) := by
  have heq := hrest.head_ne (d := 61) (by decide)
  have hgt := hrest.head_ne (d := 62) (by decide)
  unfold scanPunct
  split
  · exact absurd rfl heq
  · exact absurd rfl heq
  · exact absurd rfl heq
  · exact absurd rfl hgt
  · rfl

/-- Punctuation of one character that can begin nothing else. -/
theorem scanToken_single {p : Punct} {c : UInt8}
    (hfind : (Punct.singles.find? fun p => p.text == [c]) = some p)
    (hc : isSpace c = false ∧ c ≠ 45 ∧ c ≠ 39 ∧ isDigit c = false ∧ isIdentStart c = false)
    (hrest : Ends rest) : scanToken stod prev c rest = .ok (some (.punct p), rest) := by
  obtain ⟨hspace, hminus, hquote, hdigit, hstart⟩ := hc
  rw [scanToken, hspace, if_neg Bool.false_ne_true, if_neg fun h => hminus h.1, if_neg hquote,
    hdigit, if_neg Bool.false_ne_true, if_neg fun h => hminus h.1, hstart,
    if_neg Bool.false_ne_true, scanPunct_ends c hrest, hfind]
  rfl

/-- A minus in front of whitespace is an operator. -/
theorem scanToken_minus (hrest : Ends rest) :
    scanToken stod prev 45 rest = .ok (some (.punct .minus), rest) := by
  have hcomment := hrest.head_ne (d := 45) (by decide)
  have hdigit : ¬ rest.head?.any isDigit := by
    cases rest with
    | nil => simp
    | cons c rest =>
      have hc := hrest.not_isDigit c rfl
      simp [hc]
  rw [scanToken, if_neg (by decide), if_neg fun h => hcomment h.2, if_neg (by decide),
    if_neg (by decide), if_neg fun h => hdigit h.2.1, if_neg (by decide), scanPunct_ends _ hrest]
  rfl

/-- Punctuation is read back. -/
theorem scanToken_punct (p : Punct) (hrest : Ends rest) :
    ∃ c cs, p.text = c :: cs ∧ scanToken stod prev c (cs ++ rest) = .ok (some (.punct p), rest) := by
  cases p with
  | ne => exact ⟨33, [61], rfl, rfl⟩
  | le => exact ⟨60, [61], rfl, rfl⟩
  | ge => exact ⟨62, [61], rfl, rfl⟩
  | minus => exact ⟨45, [], rfl, scanToken_minus hrest⟩
  | lparen => exact ⟨40, [], rfl, scanToken_single rfl (by decide) hrest⟩
  | rparen => exact ⟨41, [], rfl, scanToken_single rfl (by decide) hrest⟩
  | comma => exact ⟨44, [], rfl, scanToken_single rfl (by decide) hrest⟩
  | semicolon => exact ⟨59, [], rfl, scanToken_single rfl (by decide) hrest⟩
  | star => exact ⟨42, [], rfl, scanToken_single rfl (by decide) hrest⟩
  | eq => exact ⟨61, [], rfl, scanToken_single rfl (by decide) hrest⟩
  | lt => exact ⟨60, [], rfl, scanToken_single rfl (by decide) hrest⟩
  | gt => exact ⟨62, [], rfl, scanToken_single rfl (by decide) hrest⟩
  | dot => exact ⟨46, [], rfl, scanToken_single rfl (by decide) hrest⟩
  | plus => exact ⟨43, [], rfl, scanToken_single rfl (by decide) hrest⟩
  | slash => exact ⟨47, [], rfl, scanToken_single rfl (by decide) hrest⟩

/-- A keyword in any case is a word of letters. -/
theorem isAlpha_of_toUpper {k : Keyword} (hw : toUpper w = k.text) : ∀ c ∈ w, isAlpha c := by
  have hupper : ∀ c ∈ k.text, isAlpha c := by
    cases k <;> decide +kernel
  intro c hc
  have hmem : (if 97 ≤ c && c ≤ 122 then c - 32 else c) ∈ k.text := by
    rw [← hw]
    exact List.mem_map_of_mem hc
  split at hmem
  · rename_i hlower
    rw [Bool.and_eq_true, decide_eq_true_eq, decide_eq_true_eq, UInt8.le_iff_toNat_le,
      UInt8.le_iff_toNat_le] at hlower
    exact isAlpha_iff.2 (.inr hlower)
  · exact hupper c hmem

theorem ofText_text (k : Keyword) : Keyword.ofText k.text = some k := by
  cases k <;> decide

/-- A token that is written in one of its ways is read back, up to the end of its text. -/
theorem scanToken_written (ht : Lexes stod t) (hfollows : Follows prev t) (hw : Writes t w)
    (hrest : Ends rest) :
    ∃ c cs, w = c :: cs ∧ scanToken stod prev c (cs ++ rest) = .ok (some t, rest) := by
  cases t with
  | keyword k =>
    have halpha := isAlpha_of_toUpper hw
    have hne : w ≠ [] := by
      rintro rfl
      cases k <;> cases hw
    have hstart : w.head?.any isIdentStart := by
      obtain ⟨c, cs, rfl⟩ := List.exists_cons_of_ne_nil hne
      have hc := halpha c List.mem_cons_self
      simpa [isIdentStart] using .inl hc
    obtain ⟨c, cs, hcons, hscan⟩ := scanToken_word stod prev hstart
      (fun c hc => isIdentCont_iff.2 (.inl (halpha c hc))) hrest
    refine ⟨c, cs, hcons, ?_⟩
    rw [hscan, wordToken, hw, ofText_text]
  | identifier s =>
    obtain ⟨hstart, hall, hkeyword⟩ := ht
    obtain rfl : w = s := hw
    obtain ⟨c, cs, hcons, hscan⟩ := scanToken_word stod prev hstart hall hrest
    refine ⟨c, cs, hcons, ?_⟩
    rw [hscan, wordToken, hkeyword]
  | integer text v =>
    obtain ⟨⟨digits, hne, hdigits, htext⟩, hvalue⟩ := ht
    obtain rfl : w = text := hw
    obtain ⟨d, ds, rfl⟩ := List.exists_cons_of_ne_nil hne
    refine scanToken_number (by simpa using hdigits d List.mem_cons_self)
      (scanNumber_digits hdigits hrest) ?_ ?_
    · rcases htext with rfl | rfl
      · exact .inl rfl
      · exact .inr ⟨rfl, hfollows rfl⟩
    · rw [numberToken]
      simp [hvalue]
  | float text d =>
    obtain ⟨⟨digits, fraction, hne, hdigits, hfraction, htext⟩, hvalue⟩ := ht
    obtain rfl : w = text := hw
    obtain ⟨d, ds, rfl⟩ := List.exists_cons_of_ne_nil hne
    refine scanToken_number (by simpa using hdigits d List.mem_cons_self)
      (scanNumber_point hdigits hfraction hrest) ?_ ?_
    · rcases htext with rfl | rfl
      · exact .inl rfl
      · exact .inr ⟨rfl, hfollows rfl⟩
    · rw [numberToken]
      simp [hvalue]
  | string s =>
    obtain rfl : w = 39 :: (quoteString s ++ [39]) := hw
    refine ⟨39, _, rfl, ?_⟩
    rw [List.append_assoc, scanToken, if_neg (by decide), if_neg fun h => absurd h.1 (by decide),
      if_pos rfl, List.cons_append, List.nil_append, scanString_quoteString s hrest]
  | punct p =>
    obtain rfl : w = p.text := hw
    exact scanToken_punct p hrest
  | eof => exact absurd ht id

/-! ## What is read is a token -/

/-- The text of a number that begins with a digit, with or without a point. -/
theorem scanNumber_text {s : Bytes} (hdigit : s.head?.any isDigit) :
    ∃ digits, digits ≠ [] ∧ (∀ c ∈ digits, isDigit c) ∧
      ((∃ rest, scanNumber s = (digits, false, rest)) ∨
        ∃ fraction rest, (∀ c ∈ fraction, isDigit c) ∧
          scanNumber s = (digits ++ 46 :: fraction, true, rest)) := by
  have hne : s.takeWhile isDigit ≠ [] := by
    cases s with
    | nil => simp at hdigit
    | cons c s =>
      have hc : isDigit c := by simpa using hdigit
      rw [List.takeWhile_cons, hc]
      exact List.cons_ne_nil _ _
  refine ⟨s.takeWhile isDigit, hne, fun c hc => List.mem_takeWhile_imp hc, ?_⟩
  rw [scanNumber, scanDigits]
  dsimp only
  split
  · exact .inr ⟨_, _, fun c hc => List.mem_takeWhile_imp hc, rfl⟩
  · exact .inl ⟨_, rfl⟩

/-- A text that begins with a digit follows anything; one that begins with a minus may. -/
theorem follows_number {digits signed : Bytes} (more : Bytes) (hne : digits ≠ [])
    (hdigits : ∀ c ∈ digits, isDigit c)
    (hsigned : signed = digits ++ more ∨ signed = 45 :: (digits ++ more) ∧ prevIsValue prev = false)
    (hhead : signed.head? = some 45) : prevIsValue prev = false := by
  rcases hsigned with rfl | ⟨-, hprev⟩
  · obtain ⟨d, ds, rfl⟩ := List.exists_cons_of_ne_nil hne
    exact absurd hhead (by simpa using head_ne_of_isDigit hdigits)
  · exact hprev

/-- The token of a number that begins with a digit, behind a minus that is no operator or none. -/
theorem lexes_number {s text rest' signed : Bytes} {isFloat : Bool} (hdigit : s.head?.any isDigit)
    (hscan : scanNumber s = (text, isFloat, rest'))
    (hsigned : signed = text ∨ signed = 45 :: text ∧ prevIsValue prev = false)
    (htoken : numberToken stod signed isFloat = .ok t) : Lexes stod t ∧ Follows prev t := by
  obtain ⟨digits, hne, hdigits, ⟨rest, h⟩ | ⟨fraction, rest, hfraction, h⟩⟩ := scanNumber_text hdigit
  · obtain ⟨rfl, rfl, -⟩ : digits = text ∧ false = isFloat ∧ rest = rest' := by
      simpa using h.symm.trans hscan
    rw [numberToken] at htoken
    cases hvalue : stoll signed with
    | none => simp [hvalue] at htoken
    | some v =>
      obtain rfl : Token.integer signed v = t := by simpa [hvalue] using htoken
      refine ⟨⟨⟨digits, hne, hdigits, hsigned.imp_right And.left⟩, hvalue⟩, ?_⟩
      exact follows_number [] hne hdigits (by simpa using hsigned)
  · obtain ⟨rfl, rfl, -⟩ : digits ++ 46 :: fraction = text ∧ true = isFloat ∧ rest = rest' := by
      simpa using h.symm.trans hscan
    rw [numberToken] at htoken
    cases hvalue : stod signed with
    | none => simp [hvalue] at htoken
    | some d =>
      obtain rfl : Token.float signed d = t := by simpa [hvalue] using htoken
      refine ⟨⟨⟨digits, fraction, hne, hdigits, hfraction, hsigned.imp_right And.left⟩, hvalue⟩, ?_⟩
      exact follows_number _ hne hdigits hsigned

theorem lexes_wordToken (hstart : w.head?.any isIdentStart) (hall : ∀ c ∈ w, isIdentCont c) :
    Lexes stod (wordToken w) ∧ Follows prev (wordToken w) := by
  rw [wordToken]
  cases hkeyword : Keyword.ofText (toUpper w) with
  | none => exact ⟨⟨hstart, hall, hkeyword⟩, trivial⟩
  | some k => exact ⟨trivial, trivial⟩

/-- Every token that the lexer makes is the token of some text, and a sign was no operator. -/
theorem scanToken_sound {c : UInt8} {cs : Bytes}
    (h : scanToken stod prev c cs = .ok (some t, rest)) : Lexes stod t ∧ Follows prev t := by
  unfold scanToken at h
  split at h
  · cases h
  split at h
  · cases h
  split at h
  · split at h
    · cases h
      exact ⟨trivial, trivial⟩
    · cases h
  split at h
  · rename_i hdigit
    obtain ⟨token, htoken, h⟩ := Except.bind_eq_ok.1 h
    cases h
    exact lexes_number (by simpa using hdigit) rfl (.inl rfl) htoken
  split at h
  · rename_i hminus
    obtain ⟨token, htoken, h⟩ := Except.bind_eq_ok.1 h
    cases h
    exact lexes_number hminus.2.1 rfl (.inr ⟨rfl, by simpa using hminus.2.2⟩) htoken
  split at h
  · rename_i hstart
    cases h
    refine lexes_wordToken ?_ fun c hc => List.mem_takeWhile_imp hc
    rw [List.takeWhile_cons, if_pos (isIdentCont_iff.2 ?_)]
    · simpa using hstart
    · rcases isIdentStart_iff.1 hstart with h | h
      · exact .inl h
      · exact .inr (.inr h)
  · split at h
    · cases h
      exact ⟨trivial, trivial⟩
    · cases h

end

/-! ## Reading all tokens -/

section

variable {stod : Bytes → Option Double} {t : Token} {ts out : List Token} {w sep rest : Bytes}
  {fuel : Nat}

/-- Every token is one of the lexer's, and may stand behind the one in front of it. -/
def LexesAll (stod : Bytes → Option Double) : (prev : Option Token) → List Token → Prop
  | _, [] => True
  | prev, t :: ts => Lexes stod t ∧ Follows prev t ∧ LexesAll stod (some t) ts

/-- None of them is the EOF token. -/
theorem LexesAll.not_mem_eof {prev : Option Token} (h : LexesAll stod prev ts) :
    Token.eof ∉ ts := by
  induction ts generalizing prev with
  | nil => exact List.not_mem_nil
  | cons t ts ih =>
    rw [List.mem_cons, not_or]
    refine ⟨?_, ih h.2.2⟩
    rintro rfl
    exact h.1

theorem LexesAll.append {prev : Option Token} (h : LexesAll stod prev ts)
    (ht : Lexes stod t) (hfollows : Follows (ts.getLast?.or prev) t) :
    LexesAll stod prev (ts ++ [t]) := by
  induction ts generalizing prev with
  | nil => exact ⟨ht, by simpa using hfollows, trivial⟩
  | cons u ts ih =>
    refine ⟨h.1, h.2.1, ih h.2.2 ?_⟩
    have hlast : (u :: ts).getLast?.or prev = ts.getLast?.or (some u) := by
      cases ts with
      | nil => rfl
      | cons v ts => simp [List.getLast?_cons]
    rwa [hlast] at hfollows

/-- The tokens of any text, without the last one. -/
theorem tokenizeLoop_sound {s : Bytes} {all : List Token} (h : tokenizeLoop stod fuel s out = .ok all)
    (hout : LexesAll stod none out) : ∃ ts, all = ts ++ [.eof] ∧ LexesAll stod none ts := by
  induction fuel generalizing s out with
  | zero =>
    cases s with
    | nil =>
      cases h
      exact ⟨out, rfl, hout⟩
    | cons c cs => cases h
  | succ fuel ih =>
    cases s with
    | nil =>
      cases h
      exact ⟨out, rfl, hout⟩
    | cons c cs =>
      obtain ⟨⟨found, rest⟩, hscan, h⟩ := Except.bind_eq_ok.1 h
      refine ih h ?_
      cases found with
      | none => simpa using hout
      | some t =>
        obtain ⟨ht, hfollows⟩ := scanToken_sound hscan
        exact hout.append ht (by simpa using hfollows)

theorem tokenize_sound {sql : Bytes} {all : List Token} (h : tokenize stod sql = .ok all) :
    ∃ ts, all = ts ++ [.eof] ∧ LexesAll stod none ts :=
  tokenizeLoop_sound h trivial

variable (stod out) in
/-- Whitespace is read as nothing, and takes rounds for its own characters at most. -/
theorem tokenizeLoop_spaces {spaces : Bytes} (h : ∀ c ∈ spaces, isSpace c)
    (hfuel : (spaces ++ rest).length ≤ fuel) : ∃ fuel', rest.length ≤ fuel' ∧
      tokenizeLoop stod fuel (spaces ++ rest) out = tokenizeLoop stod fuel' rest out := by
  induction spaces generalizing fuel with
  | nil => exact ⟨fuel, hfuel, rfl⟩
  | cons c spaces ih =>
    obtain ⟨fuel, rfl⟩ : ∃ n, fuel = n + 1 := ⟨fuel - 1, by simp at hfuel; omega⟩
    obtain ⟨fuel', hfuel', hrest⟩ := ih (fun c hc => h c (List.mem_cons_of_mem _ hc))
      (by simpa using hfuel)
    refine ⟨fuel', hfuel', ?_⟩
    have hscan : scanToken stod out.getLast? c (spaces ++ rest) = .ok (none, spaces ++ rest) := by
      rw [scanToken, if_pos (h c List.mem_cons_self)]
    rw [List.cons_append, tokenizeLoop, hscan, Except.ok_bind]
    simpa using hrest

variable (stod out) in
/-- A comment is read as nothing up to the end of its line. -/
theorem tokenizeLoop_comment {comment : Bytes} (h : ∀ c ∈ comment, c ≠ 10)
    (hfuel : (45 :: 45 :: (comment ++ 10 :: rest)).length ≤ fuel) : ∃ fuel', rest.length ≤ fuel' ∧
      tokenizeLoop stod fuel (45 :: 45 :: (comment ++ 10 :: rest)) out =
        tokenizeLoop stod fuel' rest out := by
  obtain ⟨fuel, rfl⟩ : ∃ n, fuel = n + 1 := ⟨fuel - 1, by simp at hfuel; omega⟩
  have hline : (45 :: (comment ++ 10 :: rest)).dropWhile (· != 10) = 10 :: rest := by
    have hcomment : ∀ c ∈ 45 :: comment, (fun c : UInt8 => c != 10) c := by
      intro c hc
      rcases List.mem_cons.1 hc with rfl | hc
      · decide
      · simpa using h c hc
    have hend : ∀ c ∈ (10 :: rest).head?, (fun c : UInt8 => c != 10) c = false := by
      intro c hc
      obtain rfl : 10 = c := by simpa using hc
      decide
    exact (takeWhile_dropWhile_append hcomment hend).2
  have hscan : scanToken stod out.getLast? 45 (45 :: (comment ++ 10 :: rest)) =
      .ok (none, 10 :: rest) := by
    rw [scanToken, if_neg (by decide), if_pos ⟨rfl, rfl⟩, hline]
  have hnewline : ∀ c ∈ [10], isSpace c := by simp [isSpace]
  obtain ⟨fuel', hfuel', hrest⟩ := tokenizeLoop_spaces stod out hnewline
    (show ([10] ++ rest).length ≤ fuel by simp at hfuel ⊢; omega)
  refine ⟨fuel', hfuel', ?_⟩
  rw [tokenizeLoop, hscan, Except.ok_bind]
  simpa using hrest

variable (stod out) in
theorem tokenizeLoop_separator (h : IsSeparator sep) (hfuel : (sep ++ rest).length ≤ fuel) :
    ∃ fuel', rest.length ≤ fuel' ∧
      tokenizeLoop stod fuel (sep ++ rest) out = tokenizeLoop stod fuel' rest out := by
  obtain ⟨spaces, -, hspaces, rfl | ⟨comment, more, hcomment, hmore, rfl⟩⟩ := h
  · exact tokenizeLoop_spaces stod out hspaces hfuel
  · simp only [List.append_assoc, List.cons_append] at hfuel ⊢
    obtain ⟨fuel₁, hfuel₁, hone⟩ := tokenizeLoop_spaces stod out hspaces hfuel
    obtain ⟨fuel₂, hfuel₂, htwo⟩ := tokenizeLoop_comment stod out hcomment hfuel₁
    obtain ⟨fuel₃, hfuel₃, hthree⟩ := tokenizeLoop_spaces stod out hmore hfuel₂
    exact ⟨fuel₃, hfuel₃, hone.trans (htwo.trans hthree)⟩

/-- What is behind a token ends it. -/
theorem RenderedRest.ends (h : RenderedRest ts rest) : Ends rest := by
  cases h with
  | nil =>
    intro c hc
    cases hc
  | cons hsep hw hrest =>
    obtain ⟨spaces, hne, hspaces, hsep⟩ := hsep
    obtain ⟨d, ds, rfl⟩ := List.exists_cons_of_ne_nil hne
    intro c hc
    obtain rfl : d = c := by
      rcases hsep with rfl | ⟨comment, more, -, -, rfl⟩ <;> simpa using hc
    exact hspaces d List.mem_cons_self

/-- One written token is read back in one round. -/
theorem tokenizeLoop_token (ht : Lexes stod t) (hfollows : Follows out.getLast? t) (hw : Writes t w)
    (hrest : Ends rest) (hfuel : (w ++ rest).length ≤ fuel) : ∃ fuel', rest.length ≤ fuel' ∧
      tokenizeLoop stod fuel (w ++ rest) out = tokenizeLoop stod fuel' rest (out ++ [t]) := by
  obtain ⟨c, cs, rfl, hscan⟩ := scanToken_written ht hfollows hw hrest
  obtain ⟨fuel, rfl⟩ : ∃ n, fuel = n + 1 := ⟨fuel - 1, by simp at hfuel; omega⟩
  refine ⟨fuel, by simp at hfuel; omega, ?_⟩
  rw [List.cons_append, tokenizeLoop, hscan]
  rfl

theorem tokenizeLoop_renderedRest (h : RenderedRest ts rest) (hts : LexesAll stod out.getLast? ts)
    (hfuel : rest.length ≤ fuel) : tokenizeLoop stod fuel rest out = .ok (out ++ ts ++ [.eof]) := by
  induction h generalizing out fuel with
  | nil =>
    rw [List.append_nil]
    cases fuel <;> rfl
  | cons hsep hw hrest ih =>
    obtain ⟨ht, hfollows, hts⟩ := hts
    obtain ⟨fuel₁, hfuel₁, hone⟩ := tokenizeLoop_separator stod out hsep hfuel
    obtain ⟨fuel₂, hfuel₂, htwo⟩ := tokenizeLoop_token ht hfollows hw hrest.ends hfuel₁
    rw [hone, htwo, ih (by simpa using hts) hfuel₂]
    simp

/-- Tokens that are written with separators between them are read back. -/
theorem tokenize_rendered {text : Bytes} (h : Rendered ts text) (hts : LexesAll stod none ts) :
    tokenize stod text = .ok (ts ++ [.eof]) := by
  cases h with
  | nil => rfl
  | cons hw hrest =>
    obtain ⟨ht, hfollows, hts⟩ := hts
    obtain ⟨fuel, hfuel, hone⟩ := tokenizeLoop_token ht (show Follows [].getLast? _ from hfollows) hw
      hrest.ends le_rfl
    rw [tokenize, hone, tokenizeLoop_renderedRest hrest hts hfuel]
    rfl

/-- Writing out the tokens of a text in any of the ways and reading them again gives the same
    tokens. -/
theorem tokenize_again (stod : Bytes → Option Double) {sql : Bytes} {all : List Token}
    (h : tokenize stod sql = .ok all) :
    ∃ ts, all = ts ++ [.eof] ∧ ∀ text, Rendered ts text → tokenize stod text = .ok all := by
  obtain ⟨ts, rfl, hts⟩ := tokenize_sound h
  exact ⟨ts, rfl, fun text hrendered => tokenize_rendered hrendered hts⟩

theorem tokenize_again_minus :
    ∃ ts, [Token.identifier (ofAscii "a"), .punct .minus, .integer (ofAscii "1") 1, .punct .eq,
        .integer (ofAscii "-1") (-1), .eof] = ts ++ [.eof] ∧
      ∀ text, Rendered ts text → tokenize (fun _ => none) text =
        .ok [.identifier (ofAscii "a"), .punct .minus, .integer (ofAscii "1") 1, .punct .eq,
          .integer (ofAscii "-1") (-1), .eof] :=
  tokenize_again _ (show tokenize _ (ofAscii "a -1=-1--c") = _ from rfl)

end

end Lexer

end LiteOLAP
