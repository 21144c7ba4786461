/-!
# TOML lexical rules

White space, comments, strings, keys, numbers and dates. A reader takes the
text ahead and gives what it read with the text after it, or `none` for text
that breaks a rule.
-/

namespace JackVM.Toml

abbrev Reader (α : Type) := List Char → Option (α × List Char)

def isSpace (c : Char) : Bool := c = ' ' || c = '\t'

def isDigit (c : Char) : Bool := '0' ≤ c && c ≤ '9'

def isHexDigit (c : Char) : Bool := isDigit c || ('a' ≤ c && c ≤ 'f') || ('A' ≤ c && c ≤ 'F')

def isOctalDigit (c : Char) : Bool := '0' ≤ c && c ≤ '7'

def isBinaryDigit (c : Char) : Bool := c = '0' || c = '1'

def isPlain (c : Char) : Bool := c = '\t' || (' ' ≤ c && c ≠ '\x7f')

def isBareKey (c : Char) : Bool :=
  isDigit c || ('a' ≤ c && c ≤ 'z') || ('A' ≤ c && c ≤ 'Z') || c = '_' || c = '-'

def skipSpace (cs : List Char) : List Char := cs.dropWhile isSpace

def newline? : List Char → Option (List Char)
  | '\n' :: cs => some cs
  | '\r' :: '\n' :: cs => some cs
  | _ => none

def endLine? (cs : List Char) : Option (List Char) :=
  let cs := match skipSpace cs with
    | '#' :: cs => cs.dropWhile isPlain
    | cs => cs
  if cs.isEmpty then some [] else newline? cs

/-- Passes white space, line ends and comments; a comment in hand ends with
its line. -/
def skipLines (inComment : Bool) : List Char → List Char
  | [] => []
  | '\r' :: '\n' :: cs => skipLines false cs
  | c :: cs =>
    if c = '\n' then skipLines false cs
    else if inComment then if isPlain c then skipLines true cs else c :: cs
    else if isSpace c then skipLines false cs
    else if c = '#' then skipLines true cs
    else c :: cs

/-! ## Strings -/

def hexValue (ds : List Char) : Nat :=
  ds.foldl (fun n d =>
    16 * n + if isDigit d then d.toNat - '0'.toNat
      else if 'a' ≤ d then d.toNat - 'a'.toNat + 10 else d.toNat - 'A'.toNat + 10) 0

def codePoint? (digits : Nat) : Reader Char := fun cs =>
  let ds := cs.take digits
  let code := hexValue ds
  if ds.length = digits && ds.all isHexDigit && code.isValidChar then
    some (Char.ofNat code, cs.drop digits)
  else none

def escape? : Reader Char
  | 'b' :: cs => some ('\x08', cs)
  | 't' :: cs => some ('\t', cs)
  | 'n' :: cs => some ('\n', cs)
  | 'f' :: cs => some ('\x0c', cs)
  | 'r' :: cs => some ('\r', cs)
  | '"' :: cs => some ('"', cs)
  | '\\' :: cs => some ('\\', cs)
  | 'u' :: cs => codePoint? 4 cs
  | 'U' :: cs => codePoint? 8 cs
  | _ => none

/-- Passes a line end and all white space after it, if nothing but white space
comes before the line end. -/
def foldLine? (cs : List Char) : Option (List Char) :=
  (newline? (skipSpace cs)).map skipMore
where
  skipMore : List Char → List Char
    | '\r' :: '\n' :: cs => skipMore cs
    | c :: cs => if isSpace c || c = '\n' then skipMore cs else c :: cs
    | [] => []

def shortString (quote : Char) (bound : Nat) (read : List Char) : Reader String := fun cs =>
  match bound, cs with
  | 0, _ | _, [] => none
  | bound + 1, c :: cs =>
    if c = quote then some (String.ofList read.reverse, cs)
    else if c = '\\' && quote = '"' then do
      let (escaped, cs) ← escape? cs
      shortString quote bound (escaped :: read) cs
    else if isPlain c then shortString quote bound (c :: read) cs
    else none

/-- A string over several lines, after its opening quotes. Up to two quotes
may stand before the three that close it. -/
def longString (quote : Char) (bound : Nat) (read : List Char) : Reader String := fun cs =>
  match bound, cs with
  | 0, _ | _, [] => none
  | bound + 1, c :: cs =>
    if c = quote then
      let quotes := 1 + (cs.takeWhile (· = quote)).length
      let cs := cs.dropWhile (· = quote)
      if quotes < 3 then longString quote bound (List.replicate quotes quote ++ read) cs
      else if quotes ≤ 5 then
        some (String.ofList (List.replicate (quotes - 3) quote ++ read).reverse, cs)
      else none
    else if c = '\\' && quote = '"' then
      match foldLine? cs with
      | some cs => longString quote bound read cs
      | none => do
        let (escaped, cs) ← escape? cs
        longString quote bound (escaped :: read) cs
    else match newline? (c :: cs) with
      | some cs => longString quote bound ('\n' :: read) cs
      | none => if isPlain c then longString quote bound (c :: read) cs else none

def stringAfter (quote : Char) : Reader String := fun cs =>
  match cs with
  | c :: d :: rest =>
    if c = quote && d = quote then
      longString quote (rest.length + 1) [] ((newline? rest).getD rest)
    else shortString quote (cs.length + 1) [] cs
  | _ => shortString quote (cs.length + 1) [] cs

/-! ## Keys -/

def simpleKey : Reader String
  | '"' :: cs => shortString '"' (cs.length + 1) [] cs
  | '\'' :: cs => shortString '\'' (cs.length + 1) [] cs
  | cs =>
    let key := cs.takeWhile isBareKey
    if key.isEmpty then none else some (String.ofList key, cs.dropWhile isBareKey)

def dottedKey : Nat → Reader (List String)
  | 0, _ => none
  | bound + 1, cs => do
    let (key, cs) ← simpleKey (skipSpace cs)
    match skipSpace cs with
    | '.' :: cs =>
      let (keys, cs) ← dottedKey bound cs
      return (key :: keys, cs)
    | cs => return ([key], cs)

def maxKeyParts : Nat := 79

def keyPath : Reader (List String × String) := fun cs => do
  let (keys, cs) ← dottedKey maxKeyParts cs
  let last ← keys.getLast?
  return ((keys.dropLast, last), cs)

/-! ## Numbers -/

/-- The digits of a number in which single underscores may stand between
digits. -/
def digits? (isDigit : Char → Bool) : List Char → Option (List Char)
  | [] => none
  | [c] => if isDigit c then some [c] else none
  | c :: '_' :: cs => if isDigit c then (digits? isDigit cs).map (c :: ·) else none
  | c :: cs => if isDigit c then (digits? isDigit cs).map (c :: ·) else none

def valueIn (radix : Nat) (ds : List Char) : Nat :=
  ds.foldl (fun n d => radix * n + hexValue [d]) 0

def decimal? (cs : List Char) : Option Nat := do
  let ds ← digits? isDigit cs
  match cs with
  | '0' :: _ :: _ => none
  | _ => return valueIn 10 ds

def splitSign : List Char → Bool × List Char
  | '+' :: cs => (false, cs)
  | '-' :: cs => (true, cs)
  | cs => (false, cs)

def integer? (cs : List Char) : Option Int := do
  let limit : Int := Nat.pow 2 63
  let n : Int ← match cs with
    | '0' :: 'x' :: cs => (digits? isHexDigit cs).map fun ds => (valueIn 16 ds : Int)
    | '0' :: 'o' :: cs => (digits? isOctalDigit cs).map fun ds => (valueIn 8 ds : Int)
    | '0' :: 'b' :: cs => (digits? isBinaryDigit cs).map fun ds => (valueIn 2 ds : Int)
    | cs =>
      let (negative, cs) := splitSign cs
      (decimal? cs).map fun n => if negative then -(n : Int) else n
  if -limit ≤ n ∧ n < limit then return n else none

/-- Whether `m * 10 ^ e` is at least half a unit above the largest double. -/
def exceedsDouble (m : Nat) (e : Int) : Bool :=
  let limit := Nat.pow 2 1024 - Nat.pow 2 970
  let digits : Int := (Nat.toDigits 10 m).length
  if m = 0 || digits + e < 300 then false
  else if 320 < digits + e then true
  else if 0 ≤ e then limit ≤ m * Nat.pow 10 e.toNat
  else limit * Nat.pow 10 (-e).toNat ≤ m

def fraction? : List Char → Option (List Char)
  | [] => some []
  | '.' :: cs => digits? isDigit cs
  | _ => none

def exponent? : List Char → Option Int
  | [] => some 0
  | _ :: cs => do
    let (negative, cs) := splitSign cs
    let ds ← digits? isDigit cs
    let n : Int := valueIn 10 ds
    return if negative then -n else n

/-- Whether the text spells a number with a fraction or an exponent, infinity
or no number. One that rounds to positive infinity is none. -/
def isFloat (cs : List Char) : Bool :=
  let (negative, cs) := splitSign cs
  if cs = "inf".toList || cs = "nan".toList then true
  else
    let mantissa := cs.takeWhile fun c => c ≠ 'e' && c ≠ 'E'
    let ending := cs.dropWhile fun c => c ≠ 'e' && c ≠ 'E'
    let whole := mantissa.takeWhile (· ≠ '.')
    let point := mantissa.dropWhile (· ≠ '.')
    match decimal? whole, fraction? point, exponent? ending with
    | some n, some ds, some e =>
      !(point.isEmpty && ending.isEmpty) &&
        (negative || !exceedsDouble (n * Nat.pow 10 ds.length + valueIn 10 ds) (e - ds.length))
    | _, _, _ => false

/-! ## Dates and times -/

def fixedDigits? (count : Nat) : Reader Nat := fun cs =>
  let ds := cs.take count
  if ds.length = count && ds.all isDigit then some (valueIn 10 ds, cs.drop count) else none

def daysIn (year month : Nat) : Nat :=
  if month = 2 then
    if year % 4 = 0 && (year % 100 ≠ 0 || year % 400 = 0) then 29 else 28
  else if month = 4 || month = 6 || month = 9 || month = 11 then 30
  else 31

def date? (cs : List Char) : Option (List Char) := do
  let (year, cs) ← fixedDigits? 4 cs
  let '-' :: cs := cs | none
  let (month, cs) ← fixedDigits? 2 cs
  let '-' :: cs := cs | none
  let (day, cs) ← fixedDigits? 2 cs
  if 1 ≤ month && month ≤ 12 && 1 ≤ day && day ≤ daysIn year month then some cs else none

def clock? (cs : List Char) : Option (List Char) := do
  let (hour, cs) ← fixedDigits? 2 cs
  let ':' :: cs := cs | none
  let (minute, cs) ← fixedDigits? 2 cs
  if hour < 24 && minute < 60 then some cs else none

def time? (cs : List Char) : Option (List Char) := do
  let ':' :: cs ← clock? cs | none
  let (second, cs) ← fixedDigits? 2 cs
  if 60 < second then none
  match cs with
  | '.' :: cs =>
    if (cs.takeWhile isDigit).isEmpty then none else return cs.dropWhile isDigit
  | cs => return cs

def isOffset : List Char → Bool
  | [] | ['Z'] | ['z'] => true
  | c :: cs => (c = '+' || c = '-') && clock? cs = some []

def isDateTime (cs : List Char) : Bool :=
  match date? cs with
  | some [] => true
  | some (c :: cs) => (c = 'T' || c = 't' || c = ' ') && (time? cs).any isOffset
  | none => time? cs = some []

end JackVM.Toml
