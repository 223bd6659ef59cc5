import LiteOLAP.Native.Value

/-!
# The lexer

`sql/lexer.{h,cpp}`: a SQL string as a list of tokens that ends with an EOF token.

A string is a list of bytes, and the rest of it stands for the index into it. `std::stod` is a
parameter: the number a text stands for, `none` where it throws.
-/

namespace LiteOLAP

open Bytes (ofAscii)

/-! ## Tokens -/

/-- `Keywords()`. -/
inductive Keyword where
  | select | «from» | «where» | insert | into | values | create | table | drop | truncate
  | and | or | not | order | «by» | asc | desc | limit | group | having | «as» | between
  | «in» | int | bigInt | float | varchar | null | count | sum | avg | min | max | true | false
  deriving DecidableEq, Repr

namespace Keyword

/-- The upper-cased text. -/
def text : Keyword → Bytes
  | .select => ofAscii "SELECT"
  | .from => ofAscii "FROM"
  | .where => ofAscii "WHERE"
  | .insert => ofAscii "INSERT"
  | .into => ofAscii "INTO"
  | .values => ofAscii "VALUES"
  | .create => ofAscii "CREATE"
  | .table => ofAscii "TABLE"
  | .drop => ofAscii "DROP"
  | .truncate => ofAscii "TRUNCATE"
  | .and => ofAscii "AND"
  | .or => ofAscii "OR"
  | .not => ofAscii "NOT"
  | .order => ofAscii "ORDER"
  | .by => ofAscii "BY"
  | .asc => ofAscii "ASC"
  | .desc => ofAscii "DESC"
  | .limit => ofAscii "LIMIT"
  | .group => ofAscii "GROUP"
  | .having => ofAscii "HAVING"
  | .as => ofAscii "AS"
  | .between => ofAscii "BETWEEN"
  | .in => ofAscii "IN"
  | .int => ofAscii "INT"
  | .bigInt => ofAscii "BIGINT"
  | .float => ofAscii "FLOAT"
  | .varchar => ofAscii "VARCHAR"
  | .null => ofAscii "NULL"
  | .count => ofAscii "COUNT"
  | .sum => ofAscii "SUM"
  | .avg => ofAscii "AVG"
  | .min => ofAscii "MIN"
  | .max => ofAscii "MAX"
  | .true => ofAscii "TRUE"
  | .false => ofAscii "FALSE"

def all : List Keyword :=
  [.select, .from, .where, .insert, .into, .values, .create, .table, .drop, .truncate, .and, .or,
    .not, .order, .by, .asc, .desc, .limit, .group, .having, .as, .between, .in, .int, .bigInt,
    .float, .varchar, .null, .count, .sum, .avg, .min, .max, .true, .false]

/-- `Keywords().count(upper)`, with the keyword that is found. -/
def ofText (upper : Bytes) : Option Keyword := all.find? fun k => k.text == upper

end Keyword

/-- The punctuation tokens. `<>` is read as `!=`. -/
inductive Punct where
  | lparen | rparen | comma | semicolon | star | eq | lt | gt | dot | plus | minus | slash
  | ne | le | ge
  deriving DecidableEq, Repr

def Punct.text : Punct → Bytes
  | .lparen => ofAscii "("
  | .rparen => ofAscii ")"
  | .comma => ofAscii ","
  | .semicolon => ofAscii ";"
  | .star => ofAscii "*"
  | .eq => ofAscii "="
  | .lt => ofAscii "<"
  | .gt => ofAscii ">"
  | .dot => ofAscii "."
  | .plus => ofAscii "+"
  | .minus => ofAscii "-"
  | .slash => ofAscii "/"
  | .ne => ofAscii "!="
  | .le => ofAscii "<="
  | .ge => ofAscii ">="

/-- The punctuation of one character. -/
def Punct.singles : List Punct :=
  [.lparen, .rparen, .comma, .semicolon, .star, .eq, .lt, .gt, .dot, .plus, .minus, .slash]

/-- `Token`: its kind, and of its fields those that the kind has. -/
inductive Token where
  | keyword (k : Keyword)
  | identifier (text : Bytes)
  | integer (text : Bytes) (intValue : Int64)
  | float (text : Bytes) (floatValue : Double)
  | string (text : Bytes)
  | punct (p : Punct)
  | eof
  deriving DecidableEq, Repr

namespace Token

/-- The field `text`. -/
def text : Token → Bytes
  | keyword k => k.text
  | identifier text => text
  | integer text _ => text
  | float text _ => text
  | string text => text
  | punct p => p.text
  | eof => []

end Token

namespace Lexer

/-! ## Characters -/

/-- `std::isspace` in the C locale. -/
def isSpace (c : UInt8) : Bool := c == 32 || (9 ≤ c && c ≤ 13)

/-- `std::isdigit`. -/
def isDigit (c : UInt8) : Bool := 48 ≤ c && c ≤ 57

/-- `std::isalpha` in the C locale. -/
def isAlpha (c : UInt8) : Bool := (65 ≤ c && c ≤ 90) || (97 ≤ c && c ≤ 122)

/-- `IsIdentStart`: a letter or an underscore. -/
def isIdentStart (c : UInt8) : Bool := isAlpha c || c == 95

/-- `IsIdentCont`. -/
def isIdentCont (c : UInt8) : Bool := isAlpha c || isDigit c || c == 95

/-- `ToUpper`. -/
def toUpper (s : Bytes) : Bytes := s.map fun c => if 97 ≤ c && c ≤ 122 then c - 32 else c

/-! ## Single tokens -/

/-- `std::runtime_error("lexer: " + m)`. -/
def err (m : Bytes) : Exc := .runtimeError (ofAscii "lexer: " ++ m)

/-- A string literal behind its opening quote: its text, in which a doubled quote stands for one,
    and the rest behind the closing quote. -/
def scanString : Bytes → Option (Bytes × Bytes)
  | [] => none
  | 39 :: 39 :: rest => (scanString rest).map fun (s, rest) => (39 :: s, rest)
  | 39 :: rest => some ([], rest)
  | c :: rest => (scanString rest).map fun (s, rest) => (c :: s, rest)

/-- `prev_is_value`: the last token is the end of a value. -/
def prevIsValue : Option Token → Bool
  | some (.identifier _) | some (.integer _ _) | some (.float _ _) | some (.string _) => true
  | some (.punct .rparen) => true
  | _ => false

/-- The number that decimal digits stand for. -/
def digitsValue (digits : Bytes) : Nat := digits.foldl (fun n d => 10 * n + (d.toNat - 48)) 0

/-- The number that an optional minus and digits stand for. -/
def signedValue : Bytes → Int
  | 45 :: digits => -(digitsValue digits : Int)
  | digits => digitsValue digits

/-- `std::stoll` of an optional minus and digits; `none` where it throws. -/
def stoll (text : Bytes) : Option Int64 :=
  if -2 ^ 63 ≤ signedValue text ∧ signedValue text < 2 ^ 63 then some (.ofInt (signedValue text))
  else none

/-- The digits in front, and the rest. -/
def scanDigits (s : Bytes) : Bytes × Bytes := (s.takeWhile isDigit, s.dropWhile isDigit)

/-- The text of a numeric literal behind its sign, whether it has a point, and the rest. -/
def scanNumber (s : Bytes) : Bytes × Bool × Bytes :=
  let (digits, rest) := scanDigits s
  match rest with
  | 46 :: rest =>
    let (fraction, rest) := scanDigits rest
    (digits ++ 46 :: fraction, true, rest)
  | rest => (digits, false, rest)

/-- The token of a numeric literal. -/
def numberToken (stod : Bytes → Option Double) (text : Bytes) (isFloat : Bool) :
    Except Exc Token :=
  let token :=
    if isFloat then (stod text).map (Token.float text) else (stoll text).map (Token.integer text)
  match token with
  | some t => .ok t
  | none => .error (err (ofAscii "invalid numeric literal: " ++ text))

/-- The token of a word: a keyword in any case, or an identifier. -/
def wordToken (text : Bytes) : Token :=
  match Keyword.ofText (toUpper text) with
  | some k => .keyword k
  | none => .identifier text

/-- Punctuation in front, two characters before one, and the rest. -/
def scanPunct (c : UInt8) (cs : Bytes) : Option (Punct × Bytes) :=
  match c, cs with
  | 33, 61 :: rest => some (.ne, rest)
  | 60, 61 :: rest => some (.le, rest)
  | 62, 61 :: rest => some (.ge, rest)
  | 60, 62 :: rest => some (.ne, rest)
  | c, rest => (Punct.singles.find? fun p => p.text == [c]).map fun p => (p, rest)

/-- One round of the loop of `Tokenize` at the characters `c :: cs`, behind the token `prev`: the
    token that is added, if any, and the rest. -/
def scanToken (stod : Bytes → Option Double) (prev : Option Token) (c : UInt8) (cs : Bytes) :
    Except Exc (Option Token × Bytes) :=
  if isSpace c then .ok (none, cs)
  else if c = 45 ∧ cs.head? = some 45 then .ok (none, cs.dropWhile (· != 10))
  else if c = 39 then
    match scanString cs with
    | some (s, rest) => .ok (some (.string s), rest)
    | none => .error (err (ofAscii "unterminated string literal"))
  else if isDigit c then do
    let (text, isFloat, rest) := scanNumber (c :: cs)
    let t ← numberToken stod text isFloat
    return (some t, rest)
  else if c = 45 ∧ cs.head?.any isDigit ∧ !prevIsValue prev then do
    let (text, isFloat, rest) := scanNumber cs
    let t ← numberToken stod (45 :: text) isFloat
    return (some t, rest)
  else if isIdentStart c then
    .ok (some (wordToken ((c :: cs).takeWhile isIdentCont)), (c :: cs).dropWhile isIdentCont)
  else
    match scanPunct c cs with
    | some (p, rest) => .ok (some (.punct p), rest)
    | none => .error (err (ofAscii "unexpected character '" ++ [c] ++ ofAscii "'"))

/-! ## All tokens -/

/-- The loop of `Tokenize`. Every round consumes a character. -/
def tokenizeLoop (stod : Bytes → Option Double) : (fuel : Nat) → Bytes → List Token →
    Except Exc (List Token)
  | _, [], out => .ok (out ++ [.eof])
  | 0, _ :: _, _ => .error .diverges
  | fuel + 1, c :: cs, out => do
    let (t, rest) ← scanToken stod out.getLast? c cs
    tokenizeLoop stod fuel rest (out ++ t.toList)

/-- `Tokenize`. -/
def tokenize (stod : Bytes → Option Double) (sql : Bytes) : Except Exc (List Token) :=
  tokenizeLoop stod sql.length sql []

end Lexer

end LiteOLAP
