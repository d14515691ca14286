import FixedPool.Document.Node
import FixedPool.Document.Reader

/-!
Values without parts as a document writes them: strings, numbers, dates and times.
-/

namespace FixedPool.Document

open Reader

/-! ## Characters -/

def isBlank (c : Char) : Bool := c == ' ' || c == '\t'

/-- What may stand in comments, and but for quotes and backslashes in strings. -/
def isPlain (c : Char) : Bool :=
  c == '\t' || (0x20 ≤ c.toNat && c.toNat ≤ 0x7E) || 0x80 ≤ c.toNat

def isQuote (c : Char) : Bool := c.toNat == 0x22

def isApostrophe (c : Char) : Bool := c.toNat == 0x27

def isBasic (c : Char) : Bool := isPlain c && !isQuote c && c != '\\'

def isLiteral (c : Char) : Bool := isPlain c && !isApostrophe c

def blanks : Reader Unit := do
  let _ ← takeWhile isBlank

/-- A line ends with a line feed, or with a carriage return and a line feed. -/
def newline : Reader Unit := do
  let _ ← optional (char '\r')
  char '\n'

/-- The value of a digit in some base, if it is one. -/
def digitValue (base : Nat) (c : Char) : Option Nat :=
  let n := c.toNat
  let value :=
    if 48 ≤ n ∧ n ≤ 57 then n - 48
    else if 97 ≤ n ∧ n ≤ 102 then n - 87
    else if 65 ≤ n ∧ n ≤ 70 then n - 55
    else base
  if value < base then some value else none

def isDigit (base : Nat) (c : Char) : Bool := (digitValue base c).isSome

/-- The number that digits stand for. -/
def ofDigits (base : Nat) (digits : List Char) : Nat :=
  digits.foldl (fun n c => n * base + (digitValue base c).getD 0) 0

/-! ## Strings -/

/-- Exactly `count` digits, as a number. -/
def digitsExactly (base : Nat) : Nat → Nat → Reader Nat
  | 0, n => return n
  | count + 1, n => do
    let c ← satisfy (isDigit base)
    digitsExactly base count (n * base + (digitValue base c).getD 0)

/-- The character with a number of `count` hexadecimal digits; surrogates have none. -/
def unicode (count : Nat) : Reader Char := do
  let n ← digitsExactly 16 count 0
  if n.isValidChar then return Char.ofNat n else failure

/-- The character that an escape stands for. -/
def escaped : Reader Char := do
  char '\\'
  match ← satisfy fun _ => true with
  | 'b' => return Char.ofNat 8
  | 't' => return '\t'
  | 'n' => return '\n'
  | 'f' => return Char.ofNat 12
  | 'r' => return '\r'
  | '\\' => return '\\'
  | 'u' => unicode 4
  | 'U' => unicode 8
  | c => if isQuote c then return c else failure

/-- At least one character of a class. -/
def run (p : Char → Bool) : Reader (List Char) := do
  let c ← satisfy p
  return c :: (← takeWhile p)

/-- A string of one line between quotes, with escapes. -/
def basicString : Reader String := do
  let _ ← satisfy isQuote
  let parts ← many (run isBasic <|> (do return [← escaped]))
  let _ ← satisfy isQuote
  return .ofList parts.flatten

/-- A string of one line between apostrophes, taken as it is. -/
def literalString : Reader String := do
  let _ ← satisfy isApostrophe
  let cs ← takeWhile isLiteral
  let _ ← satisfy isApostrophe
  return .ofList cs

/-- A backslash at the end of a line takes the line break and all white space behind it. -/
def continuation : Reader (List Char) := do
  char '\\'
  blanks
  newline
  let _ ← many ((do let _ ← run isBlank) <|> newline)
  return []

/-- Exactly `count` characters of a class. -/
def exactly (p : Char → Bool) (count : Nat) : Reader (List Char) :=
  (List.replicate count ()).mapM fun _ => satisfy p

/-- One or two quotes that a third one does not follow. -/
def innerQuotes (p : Char → Bool) : Reader (List Char) := do
  let quotes ← takeWhile p
  if quotes.length = 1 ∨ quotes.length = 2 then return quotes else failure

/-- The closing quotes of a string of several lines; up to two more in front belong to it. -/
def closing (p : Char → Bool) : Reader (List Char) := do
  let quotes ← takeWhile p
  if 3 ≤ quotes.length ∧ quotes.length ≤ 5 then return quotes.drop 3 else failure

def lineBreak : Reader (List Char) := do
  newline
  return ['\n']

/-- A string of several lines, whose pieces between quotes are read by `piece`. -/
def multiline (quote : Char → Bool) (piece : Reader (List Char)) : Reader String := do
  let _ ← exactly quote 3
  let _ ← optional newline
  let parts ← many (piece <|> lineBreak <|> innerQuotes quote)
  let last ← closing quote
  return .ofList (parts.flatten ++ last)

def string : Reader String :=
  multiline isQuote (run isBasic <|> continuation <|> (do return [← escaped]))
    <|> basicString
    <|> multiline isApostrophe (run isLiteral)
    <|> literalString

/-! ## Numbers -/

/-- Digits, between which single underscores may stand. -/
def digits (base : Nat) : Reader (List Char) := do
  let first ← satisfy (isDigit base)
  let rest ← many do
    let _ ← optional (char '_')
    satisfy (isDigit base)
  return first :: rest

/-- Whether a minus sign stands here. -/
def sign : Reader Bool := do
  let c ← optional (satisfy fun c => c == '+' || c == '-')
  return c == some '-'

/-- Decimal digits without leading zeros. -/
def decimalDigits : Reader (List Char) := do
  match ← peek with
  | some '0' => return [← satisfy (· == '0')]
  | _ => digits 10

/-- Integers are those of 64 bits with a sign. -/
def integerOf (n : Int) : Reader Node :=
  if Int64.minValue.toInt ≤ n ∧ n ≤ Int64.maxValue.toInt then return .integer n else failure

def basedInteger (mark : Char) (base : Nat) : Reader Node := do
  char '0'
  char mark
  integerOf (ofDigits base (← digits base))

def decimalInteger : Reader Node := do
  let negative ← sign
  let n := ofDigits 10 (← decimalDigits)
  integerOf (if negative then -n else n)

def integer : Reader Node :=
  basedInteger 'x' 16 <|> basedInteger 'o' 8 <|> basedInteger 'b' 2 <|> decimalInteger

/-- The double nearest to `mantissa * 10 ^ exponent`. Magnitudes far out of range are told apart
first, so that no power is larger than it need be. -/
def nearestFloat (mantissa : Nat) (exponent : Int) : Float :=
  let size : Int := (Nat.toDigits 10 mantissa).length + exponent
  if mantissa = 0 ∨ size < -400 then 0
  else if 400 < size then Float.ofBits 0x7FF0000000000000
  else if 0 ≤ exponent then Float.ofScientific mantissa false exponent.toNat
  else Float.ofScientific mantissa true (-exponent).toNat

def exponentPart : Reader Int := do
  let _ ← satisfy fun c => c == 'e' || c == 'E'
  let negative ← sign
  let n : Int := ofDigits 10 (← digits 10)
  return if negative then -n else n

/-- A number with a fraction, an exponent or both. A number too large for a double is refused, but
not one too small on the negative side. -/
def decimalFloat : Reader Node := do
  let negative ← sign
  let whole ← decimalDigits
  let fraction ← optional do
    char '.'
    digits 10
  let exponent ← optional exponentPart
  if fraction.isNone && exponent.isNone then
    failure
  let places := fraction.getD []
  let x := nearestFloat (ofDigits 10 (whole ++ places)) (exponent.getD 0 - places.length)
  if x.isInf && !negative then
    failure
  return .float (if negative then -x else x)

def specialFloat : Reader Node := do
  let negative ← sign
  match ← optional (text "inf") with
  | some () =>
    let x := Float.ofBits 0x7FF0000000000000
    return .float (if negative then -x else x)
  | none =>
    text "nan"
    return .float (Float.ofBits 0x7FF8000000000000)

/-! ## Dates and times -/

/-- A number of `count` digits between two bounds. -/
def bounded (count least most : Nat) : Reader Nat := do
  let n ← digitsExactly 10 count 0
  if least ≤ n ∧ n ≤ most then return n else failure

def daysOf (year month : Nat) : Nat :=
  if month = 2 then
    if year % 4 = 0 ∧ (year % 100 ≠ 0 ∨ year % 400 = 0) then 29 else 28
  else if month = 4 ∨ month = 6 ∨ month = 9 ∨ month = 11 then 30
  else 31

def date : Reader Unit := do
  let year ← bounded 4 0 9999
  char '-'
  let month ← bounded 2 1 12
  char '-'
  let _ ← bounded 2 1 (daysOf year month)

/-- A time of day; the last second of a minute may be a leap second. -/
def time : Reader Unit := do
  let _ ← bounded 2 0 23
  char ':'
  let _ ← bounded 2 0 59
  char ':'
  let _ ← bounded 2 0 60
  let _ ← optional do
    char '.'
    run (isDigit 10)

def zoneOffset : Reader Unit := do
  match ← satisfy fun c => c == 'Z' || c == 'z' || c == '+' || c == '-' with
  | 'Z' | 'z' => return
  | _ =>
    let _ ← bounded 2 0 23
    char ':'
    let _ ← bounded 2 0 59

def dateTime : Reader Unit := do
  date
  let _ ← optional do
    let _ ← satisfy fun c => c == 'T' || c == 't' || c == ' '
    time
    optional zoneOffset

def moment : Reader Node := do
  dateTime <|> time
  return .moment

/-! ## All of them -/

def boolean : Reader Node :=
  (do text "true"; return .boolean true) <|> (do text "false"; return .boolean false)

/-- A value without parts. -/
def scalar : Reader Node := do
  match ← peek with
  | none => failure
  | some c =>
    if isQuote c || isApostrophe c then
      return .string (← string)
    else
      boolean <|> moment <|> decimalFloat <|> specialFloat <|> integer

end FixedPool.Document
