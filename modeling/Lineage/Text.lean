/-! # Text

Blank characters, trimming, splitting and quoting. Every rule is stated on lists of characters and
lifted to strings, so that lemmas are plain inductions.
-/
namespace Lineage.Text

/-- The characters with the Unicode property White_Space. -/
def isBlank (c : Char) : Bool :=
  let n := c.toNat
  (9 ≤ n && n ≤ 13) || n == 0x20 || n == 0x85 || n == 0xA0 || n == 0x1680 ||
  (0x2000 ≤ n && n ≤ 0x200A) || n == 0x2028 || n == 0x2029 || n == 0x202F || n == 0x205F ||
  n == 0x3000

def trimStartChars (cs : List Char) : List Char := cs.dropWhile isBlank

def trimEndChars (cs : List Char) : List Char := (cs.reverse.dropWhile isBlank).reverse

def trimStart (s : String) : String := String.ofList (trimStartChars s.toList)

def trimEnd (s : String) : String := String.ofList (trimEndChars s.toList)

def trim (s : String) : String := String.ofList (trimEndChars (trimStartChars s.toList))

/-- The pieces between separators; always one more piece than there are separators. -/
def piecesChars (sep : Char → Bool) : List Char → List (List Char)
  | [] => [[]]
  | c :: cs =>
    if sep c then [] :: piecesChars sep cs
    else match piecesChars sep cs with
      | [] => [[c]]
      | p :: ps => (c :: p) :: ps

def pieces (sep : Char → Bool) (s : String) : List String :=
  (piecesChars sep s.toList).map String.ofList

def words (s : String) : List String :=
  ((piecesChars isBlank s.toList).filter (!·.isEmpty)).map String.ofList

/-- The lines of a text, without their ends: a line ends with a line feed, a carriage return before
it belongs to the end, and a final line end opens no further line. -/
def lines (s : String) : List String :=
  let rows := piecesChars (· == '\n') s.toList
  let rows := if rows.getLast? == some [] then rows.dropLast else rows
  let last := rows.length - 1
  let ended := s.toList.getLast? == some '\n'
  rows.mapIdx fun i row =>
    String.ofList <|
      if (i < last || ended) && row.getLast? == some '\r' then row.dropLast else row

def join (sep : String) (xs : List String) : String := sep.intercalate xs

def replaceChar (old new : Char) (s : String) : String :=
  s.map fun c => if c == old then new else c

def startsWithChars (start cs : List Char) : Bool := start.isPrefixOf cs

def startsWith (start s : String) : Bool := start.toList.isPrefixOf s.toList

def endsWith (ending s : String) : Bool := ending.toList.isSuffixOf s.toList

def after? (start s : String) : Option String :=
  if startsWith start s then some (String.ofList (s.toList.drop start.toList.length)) else none

def before? (ending s : String) : Option String :=
  if endsWith ending s then
    some (String.ofList (s.toList.take (s.toList.length - ending.toList.length)))
  else none

def splitAtFirst (needle : List Char) : List Char → Option (List Char × List Char)
  | [] => if needle.isEmpty then some ([], []) else none
  | c :: cs =>
    if needle.isPrefixOf (c :: cs) then some ([], (c :: cs).drop needle.length)
    else (splitAtFirst needle cs).map fun (a, b) => (c :: a, b)

def splitOnce (needle s : String) : Option (String × String) :=
  (splitAtFirst needle.toList s.toList).map fun (a, b) => (String.ofList a, String.ofList b)

def contains (needle s : String) : Bool := (splitAtFirst needle.toList s.toList).isSome

def asciiLower (c : Char) : Char := if 'A' ≤ c ∧ c ≤ 'Z' then Char.ofNat (c.toNat + 32) else c

def asciiUpper (c : Char) : Char := if 'a' ≤ c ∧ c ≤ 'z' then Char.ofNat (c.toNat - 32) else c

def isDigit (c : Char) : Bool := '0' ≤ c && c ≤ '9'

def hexDigit? (c : Char) : Option Nat :=
  if isDigit c then some (c.toNat - '0'.toNat)
  else if 'a' ≤ c && c ≤ 'f' then some (c.toNat - 'a'.toNat + 10)
  else if 'A' ≤ c && c ≤ 'F' then some (c.toNat - 'A'.toNat + 10)
  else none

def digitsValue (cs : List Char) : Nat :=
  cs.foldl (fun n c => n * 10 + (c.toNat - '0'.toNat)) 0

def paddedHex (width n : Nat) : String :=
  let digits := (Nat.toDigits 16 n).map asciiUpper
  String.ofList (List.replicate (width - digits.length) '0' ++ digits)

def paddedNat (width n : Nat) : String :=
  let digits := Nat.toDigits 10 n
  String.ofList (List.replicate (width - digits.length) '0' ++ digits)

/-- Characters that a quoted text shows by number: controls, separators other than the plain
space, and marks and formats that print nothing of their own. -/
def isUnprintable (c : Char) : Bool :=
  let n := c.toNat
  n < 0x20 || (0x7F ≤ n && n ≤ 0xA0) || n == 0xAD || (0x300 ≤ n && n ≤ 0x36F) || n == 0x1680 ||
  n == 0x180E || (0x2000 ≤ n && n ≤ 0x200F) || (0x2028 ≤ n && n ≤ 0x202F) ||
  (0x205F ≤ n && n ≤ 0x206F) || n == 0x3000 || (0xE000 ≤ n && n ≤ 0xF8FF) ||
  (0xFE00 ≤ n && n ≤ 0xFE0F) || n == 0xFEFF || (0xFFF0 ≤ n && n ≤ 0xFFFB) || 0xE0000 ≤ n

def quotedChar (c : Char) : List Char :=
  if c = '"' then ['\\', '"']
  else if c = '\\' then ['\\', '\\']
  else if c = '\n' then ['\\', 'n']
  else if c = '\r' then ['\\', 'r']
  else if c = '\t' then ['\\', 't']
  else if c = '\x00' then ['\\', '0']
  else if isUnprintable c then "\\u\x7b".toList ++ Nat.toDigits 16 c.toNat ++ "\x7d".toList
  else [c]

def quoted (s : String) : String :=
  String.ofList ('"' :: s.toList.flatMap quotedChar ++ ['"'])

end Lineage.Text
