import Mathlib.Algebra.Order.Ring.Int
import Mathlib.Data.List.DropRight
import Mathlib.Data.List.Infix
import ProxyLoop.Lib.Regex

/-!
# Text, as Python reads it

The character classes of `re` and `str`, and the patterns over them.  The tables of `unicodedata`
that no definition here lists are left open in `Unicode`.
-/

namespace ProxyLoop

open Lib (Regex)

/-- What of the Unicode tables is left open. -/
structure Unicode where
  /-- `str.isalnum` of a character that is not ASCII -/
  alnum : Char → Bool
  /-- `str.lower` -/
  lower : List Char → List Char
  /-- `str.casefold` -/
  casefold : List Char → List Char
  /-- `unicodedata.normalize("NFKC", ...)` -/
  nfkc : List Char → List Char

namespace Text

/-! ## Characters -/

/-- `str.isspace`, which is also `\\s`. -/
def isSpace (c : Char) : Bool :=
  let n := c.toNat
  9 ≤ n && n ≤ 13 || 28 ≤ n && n ≤ 32 || n = 0x85 || n = 0xa0 || n = 0x1680 ||
    0x2000 ≤ n && n ≤ 0x200a || n = 0x2028 || n = 0x2029 || n = 0x202f || n = 0x205f || n = 0x3000

/-- The zeros of the decimal digits of the other scripts. -/
def zeros : List Nat :=
  [1632, 1776, 1984, 2406, 2534, 2662, 2790, 2918, 3046, 3174, 3302, 3430, 3558, 3664, 3792,
    3872, 4160, 4240, 6112, 6160, 6470, 6608, 6784, 6800, 6992, 7088, 7232, 7248, 42528, 43216,
    43264, 43472, 43504, 43600, 44016, 65296, 66720, 68912, 69734, 69872, 69942, 70096, 70384,
    70736, 70864, 71248, 71360, 71472, 71904, 72016, 72784, 73040, 73120, 73552, 92768, 92864,
    93008, 120782, 120792, 120802, 120812, 120822, 123200, 123632, 124144, 125264, 130032]

/-- `unicodedata.decimal` -/
def decimal? (c : Char) : Option Nat :=
  if c.toNat < 128 then if 48 ≤ c.toNat && c.toNat ≤ 57 then some (c.toNat - 48) else none
  else (zeros.find? fun z => z ≤ c.toNat && c.toNat < z + 10).map (c.toNat - ·)

/-- `str.isdecimal`, which is also `\\d`. -/
def isDecimal (c : Char) : Bool := (decimal? c).isSome

def isUpper (c : Char) : Bool := 65 ≤ c.toNat && c.toNat ≤ 90

def isLower (c : Char) : Bool := 97 ≤ c.toNat && c.toNat ≤ 122

/-- An ASCII letter, digit or `_`. -/
def isAsciiWord (c : Char) : Bool :=
  isUpper c || isLower c || 48 ≤ c.toNat && c.toNat ≤ 57 || c = '_'

def isAlnum (u : Unicode) (c : Char) : Bool :=
  if c.toNat < 128 then isAsciiWord c && c ≠ '_' else u.alnum c

/-- `\\w` -/
def isWord (u : Unicode) (c : Char) : Bool := isAlnum u c || c = '_'

def lowerChar (c : Char) : Char := if isUpper c then Char.ofNat (c.toNat + 32) else c

/-- Whether a lower-case ASCII pattern character matches under `re.IGNORECASE`. -/
def sameCase (pattern c : Char) : Bool :=
  pattern = lowerChar c || pattern = 'i' && (c.toNat = 0x130 || c.toNat = 0x131) ||
    pattern = 's' && c.toNat = 0x17f || pattern = 'k' && c.toNat = 0x212a

/-! ## Strings -/

/-- `str.strip()` of a suffix and of a prefix. -/
def lstrip (s : List Char) : List Char := s.dropWhile isSpace

def rstrip (s : List Char) : List Char := s.rdropWhile isSpace

def strip (s : List Char) : List Char := rstrip (lstrip s)

def startsWith (head text : List Char) : Bool := head.isPrefixOf text

def contains (text part : List Char) : Bool := text.tails.any part.isPrefixOf

def natOf (digits : List Char) : Nat :=
  digits.foldl (fun n c => 10 * n + (decimal? c).getD 0) 0

/-- `Decimal(text)` of digits, perhaps with a fraction. -/
def decimalOf (text : List Char) : Rat :=
  let whole := text.takeWhile (· ≠ '.')
  let fraction := (text.dropWhile (· ≠ '.')).drop 1
  mkRat (natOf (whole ++ fraction)) (10 ^ fraction.length)

/-! ## Patterns -/

def word (text : String) : Regex Char := .word (· == ·) text.toList

/-- A lower-case text under `re.IGNORECASE`. -/
def anyCase (text : String) : Regex Char := .word sameCase text.toList

def char (c : Char) : Regex Char := .set (· == c)

def digit : Regex Char := .set isDecimal

def space : Regex Char := .set isSpace

def digits : Regex Char := .plus digit

def spaces : Regex Char := .star space

/-- `\\d+(?:\\.\\d+)?` -/
def number : Regex Char := .seq digits (.opt (.seq (char '.') digits))

/-- `re.sub(r"(?<=\\d),(?=\\d{3})", "", text)` -/
def joinThousands (text : List Char) : List Char :=
  Regex.sub (.all [.behind isDecimal, char ',', .ahead (.times digit 3)]) (fun _ => []) text

def numbers (text : List Char) : List Rat :=
  ((number.findall (joinThousands text))).map decimalOf

end Text

end ProxyLoop
