import FlowGraph.Reader.Basic
import FlowGraph.Toml.Item

/-! TOML scalars that are no texts: truth values, numbers, dates and times. -/
namespace FlowGraph.Toml

open Reader

def isDigit (c : Char) : Bool := c.isDigit

def isHexDigit (c : Char) : Bool := c.isDigit || ('a' ≤ c && c ≤ 'f') || ('A' ≤ c && c ≤ 'F')

/-- The value of a hexadecimal digit. -/
def digitValue (c : Char) : Nat :=
  if c.isDigit then c.toNat - '0'.toNat
  else if 'a' ≤ c then c.toNat - 'a'.toNat + 10
  else c.toNat - 'A'.toNat + 10

def numberOf (base : Nat) (digits : List Char) : Nat :=
  digits.foldl (fun n d => n * base + digitValue d) 0

/-- Exactly `n` characters of a class. -/
def exactly (p : Char → Bool) : Nat → Reader (List Char)
  | 0 => pure []
  | n + 1 => do
    let c ← ofClass p
    return c :: (← exactly p n)

/-- Digits with single underscores between them. -/
def digits (p : Char → Bool) : Reader (List Char) := do
  let first ← ofClass p
  let others ← many (do
    let _ ← Reader.optional (char '_')
    ofClass p)
  return first :: others

def sign : Reader (Option Char) := Reader.optional (oneOf ['+', '-'])

def truthValue : Reader Scalar := do
  word "true".toList <|> word "false".toList
  return .plain

/-- A number, which is plain if it is in the range of some type of numbers. -/
def Scalar.number (inRange : Bool) : Scalar := if inRange then .plain else .unreadable

/-- Decimal digits without a leading zero. -/
def decimal : Reader (List Char) := do
  let ds ← digits isDigit
  require (ds.head? != some '0' || ds.length == 1)
  return ds

/-- Whole numbers have 128 bits, with or without a sign. -/
def isWholeInRange (negative : Bool) (n : Nat) : Bool :=
  if negative then n ≤ Nat.pow 2 127 else n < Nat.pow 2 128

def decimalNumber : Reader Scalar := do
  let s ← sign
  return .number (isWholeInRange (s == some '-') (numberOf 10 (← decimal)))

/-- A number after the letter that names its base. Without its digits it is unreadable. -/
def basedNumber (letter : Char) (base : Nat) (p : Char → Bool) : Reader Scalar := do
  let _ ← char '0'
  let _ ← char letter
  match ← Reader.optional (digits p) with
  | some ds => return .number (isWholeInRange false (numberOf base ds))
  | none => return .unreadable

/-- The least number that rounds to infinity in 64 bits. -/
def infiniteBound : Nat := Nat.pow 2 1024 - Nat.pow 2 970

/-- Whether a number, given by its digits and a power of ten, rounds to a finite one. The bound has
309 digits, and most numbers are told apart by how many they have. -/
def isFloatInRange (ds : List Char) (power : Int) : Bool :=
  let significant := ds.dropWhile (· == '0')
  let size := significant.length + power
  if significant.isEmpty || size < 309 then true
  else if 309 < size then false
  else
    numberOf 10 significant * Nat.pow 10 power.toNat < infiniteBound * Nat.pow 10 (-power).toNat

def exponent : Reader Int := do
  let _ ← oneOf ['e', 'E']
  let s ← sign
  let n : Int := numberOf 10 (← digits isDigit)
  return if s == some '-' then -n else n

def fraction : Reader (List Char) := do
  let _ ← char '.'
  digits isDigit

/-- Infinity, or what is no number. -/
def specialFloat : Reader Scalar := do
  let _ ← sign
  word "inf".toList <|> word "nan".toList
  return .plain

def float : Reader Scalar := do
  let _ ← sign
  let whole ← decimal
  let (part, power) ←
    (do return ([], ← exponent)) <|> do
      let part ← fraction
      return (part, (← Reader.optional exponent).getD 0)
  return .number (isFloatInRange (whole ++ part) (power - part.length))

def daysIn (year month : Nat) : Nat :=
  if month == 2 then
    if year % 4 == 0 && (year % 100 != 0 || year % 400 == 0) then 29 else 28
  else if [4, 6, 9, 11].contains month then 30
  else 31

/-- A number of exactly `n` decimal digits. -/
def fixed (n : Nat) : Reader Nat := do return numberOf 10 (← exactly isDigit n)

def date : Reader Unit := do
  let year ← fixed 4
  let _ ← char '-'
  let month ← fixed 2
  let _ ← char '-'
  let day ← fixed 2
  require (1 ≤ month && month ≤ 12 && 1 ≤ day && day ≤ daysIn year month)

def hourMinute : Reader Unit := do
  let hour ← fixed 2
  let _ ← char ':'
  let minute ← fixed 2
  require (hour ≤ 23 && minute ≤ 59)

/-- Seconds and their fraction may be left out. -/
def time : Reader Unit := do
  hourMinute
  let _ ← Reader.optional (do
    let _ ← char ':'
    require ((← fixed 2) ≤ 60)
    let _ ← Reader.optional (do
      let _ ← char '.'
      let _ ← many1 (ofClass isDigit)))

def offset : Reader Unit :=
  (do let _ ← oneOf ['Z', 'z']) <|> do
    let _ ← oneOf ['+', '-']
    hourMinute

/-- A date, a time or both; only both together may have an offset. -/
def moment : Reader Scalar := do
  (do
    date
    let _ ← Reader.optional (do
      let _ ← oneOf ['T', 't', ' ']
      time
      let _ ← Reader.optional offset)) <|> time
  return .moment

def isSpace (c : Char) : Bool := c == ' ' || c == '\t'

/-- Whether a character may stand in a scalar: everything may but blanks, line ends, and the marks
between values. -/
def isWordChar (c : Char) : Bool :=
  !(isSpace c || ['\n', '\r', '#', '=', ',', '[', ']', '\x7b', '\x7d'].contains c)

/-- One more character of a scalar. Blanks belong to it where another word follows them, as between
a date and a time; a quote would begin a text. -/
def scalarChar : Reader Char := fun c =>
  match c.next? with
  | none => ⟨none, []⟩
  | some (x, d) =>
    if isWordChar x then ⟨some (x, d), []⟩
    else
      match isSpace x, (d.skip isSpace).next? with
      | true, some (y, _) =>
        if isWordChar y && y != '"' && y != '\'' then ⟨some (x, d), []⟩ else ⟨none, []⟩
      | _, _ => ⟨none, []⟩

/-- A scalar ends where none of its characters follows. -/
def endOfScalar : Reader Unit := fun c =>
  match (scalarChar c).result with
  | some _ => ⟨none, []⟩
  | none => ⟨some ((), c), []⟩

/-- Whether underscores stand between hexadecimal digits only, in a text that comes after one. -/
def separatesDigits : List Char → Bool
  | [] => true
  | ['_'] => false
  | '_' :: c :: rest => isHexDigit c && separatesDigits rest
  | c :: '_' :: rest => isHexDigit c && separatesDigits ('_' :: rest)
  | _ :: rest => separatesDigits rest

/-- What begins as a whole number with an underscore and goes on with something else. It is a scalar
as long as its underscores separate digits and nothing in it is the mark of a fraction. -/
def brokenNumber : Reader Scalar := do
  let _ ← sign
  let ds ← many1 (ofClass isDigit)
  require (ds.head? != some '0')
  let rest ← many scalarChar
  require (rest.head? == some '_' && separatesDigits rest)
  require (!rest.any [' ', '.', 'e', 'E'].contains)
  return .unreadable

def scalar : Reader Scalar :=
  (truthValue <* endOfScalar) <|> (moment <* endOfScalar) <|> (specialFloat <* endOfScalar) <|>
    (float <* endOfScalar) <|> (basedNumber 'x' 16 isHexDigit <* endOfScalar) <|>
    (basedNumber 'o' 8 (fun c => '0' ≤ c && c ≤ '7') <* endOfScalar) <|>
    (basedNumber 'b' 2 (fun c => c == '0' || c == '1') <* endOfScalar) <|>
    (decimalNumber <* endOfScalar) <|> brokenNumber

end FlowGraph.Toml
