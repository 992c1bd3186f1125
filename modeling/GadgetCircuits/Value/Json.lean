import GadgetCircuits.Value
import GadgetCircuits.Number.Numeral

/-!
Values as JSON text. A number with a point or an exponent is a double, any other an integer; the
order of keys is kept.
-/

namespace GadgetCircuits.Json

def hexDigit (c : Char) : Nat :=
  if c.isDigit then c.toNat - '0'.toNat
  else if 'a' ≤ c && c ≤ 'f' then c.toNat - 'a'.toNat + 10
  else if 'A' ≤ c && c ≤ 'F' then c.toNat - 'A'.toNat + 10
  else 0

def codeUnit (a b c d : Char) : Nat :=
  4096 * hexDigit a + 256 * hexDigit b + 16 * hexDigit c + hexDigit d

def replacement : Char :=
  Char.ofNat 0xfffd

def escaped : Char → Char
  | 'n' => '\n'
  | 't' => '\t'
  | 'r' => '\r'
  | 'b' => Char.ofNat 8
  | 'f' => Char.ofNat 12
  | c => c

def readString : Nat → List Char → List Char → Option (String × List Char)
  | 0, _, _ => none
  | fuel + 1, acc, cs =>
    match cs with
    | '"' :: rest => some (String.ofList acc.reverse, rest)
    | '\\' :: 'u' :: a :: b :: c :: d :: rest =>
      let u := codeUnit a b c d
      if 0xd800 ≤ u && u < 0xdc00 then
        match rest with
        | '\\' :: 'u' :: e :: f :: g :: h :: rest' =>
          let v := codeUnit e f g h
          if 0xdc00 ≤ v && v < 0xe000 then
            readString fuel (Char.ofNat (0x10000 + (u - 0xd800) * 1024 + (v - 0xdc00)) :: acc) rest'
          else readString fuel (replacement :: acc) rest
        | _ => readString fuel (replacement :: acc) rest
      else
        readString fuel ((if 0xdc00 ≤ u && u < 0xe000 then replacement else Char.ofNat u) :: acc) rest
    | '\\' :: c :: rest => readString fuel (escaped c :: acc) rest
    | c :: rest => readString fuel (c :: acc) rest
    | [] => none

def isNumeral (c : Char) : Bool :=
  c.isDigit || c == '-' || c == '+' || c == '.' || c == 'e' || c == 'E'

def number (cs : List Char) : Value :=
  if cs.any fun c => c == '.' || c == 'e' || c == 'E' then
    match Numeral.fraction cs with
    | .ok q =>
      if q == 0 && cs.head? == some '-' then .float (-0.0) else .float (Binary.ofRat q)
    | .error _ => .null
  else
    match Numeral.int? cs with
    | some n => .int n
    | none => .null

def skipBlanks (cs : List Char) : List Char :=
  cs.dropWhile fun c => c == ' ' || c == '\n' || c == '\t' || c == '\r'

def opening : Char := Char.ofNat 0x7b

def closing : Char := Char.ofNat 0x7d

mutual

/-- One value and what follows it. Every call reads at least one character, so the length of the
text is enough fuel. -/
def readValue : Nat → List Char → Option (Value × List Char)
  | 0, _ => none
  | fuel + 1, cs =>
    match skipBlanks cs with
    | 'n' :: 'u' :: 'l' :: 'l' :: rest => some (.null, rest)
    | 't' :: 'r' :: 'u' :: 'e' :: rest => some (.bool true, rest)
    | 'f' :: 'a' :: 'l' :: 's' :: 'e' :: rest => some (.bool false, rest)
    | '"' :: rest => (readString (fuel + 1) [] rest).map fun (s, r) => (.str s, r)
    | '[' :: rest =>
      match skipBlanks rest with
      | ']' :: r => some (.list [], r)
      | r => (readItems fuel r).map fun (vs, r) => (.list vs, r)
    | c :: rest =>
      if c == opening then
        match skipBlanks rest with
        | [] => none
        | d :: r =>
          if d == closing then some (.dict [], r)
          else (readEntries fuel (d :: r)).map fun (es, r) => (.dict es, r)
      else
        let digits := (c :: rest).takeWhile isNumeral
        if digits.isEmpty then none else some (number digits, (c :: rest).drop digits.length)
    | [] => none

def readItems : Nat → List Char → Option (List Value × List Char)
  | 0, _ => none
  | fuel + 1, cs =>
    match readValue fuel cs with
    | none => none
    | some (v, r) =>
      match skipBlanks r with
      | ',' :: r => (readItems fuel r).map fun (vs, r) => (v :: vs, r)
      | ']' :: r => some ([v], r)
      | _ => none

def readEntries : Nat → List Char → Option (List (Value × Value) × List Char)
  | 0, _ => none
  | fuel + 1, cs =>
    match skipBlanks cs with
    | '"' :: rest =>
      match readString (fuel + 1) [] rest with
      | none => none
      | some (k, r) =>
        match skipBlanks r with
        | ':' :: r =>
          match readValue fuel r with
          | none => none
          | some (v, r) =>
            match skipBlanks r with
            | ',' :: r => (readEntries fuel r).map fun (es, r) => ((.str k, v) :: es, r)
            | d :: r => if d == closing then some ([(.str k, v)], r) else none
            | [] => none
        | _ => none
    | _ => none

end

def read (s : String) : Option Value :=
  let cs := s.toList
  (readValue (2 * cs.length + 2) cs).map Prod.fst

def escape (c : Char) : String :=
  if c == '"' then "\\\""
  else if c == '\\' then "\\\\"
  else if c.toNat < 0x20 || c.toNat == 0x7f then
    "\\u" ++ String.ofList (Text.hexText 4 c.toNat)
  else String.ofList [c]

def quote (s : String) : String :=
  "\"" ++ String.join (s.toList.map escape) ++ "\""

mutual

/-- The text of a value. Tuples are arrays, and keys are written as texts. -/
def write : Value → String
  | .null => "null"
  | .bool b => if b then "true" else "false"
  | .int n => toString n
  | .float x => Decimal.free x
  | .str s => quote s
  | .list vs => "[" ++ ",".intercalate (writeAll vs) ++ "]"
  | .tuple vs => "[" ++ ",".intercalate (writeAll vs) ++ "]"
  | .dict es => "\x7b" ++ ",".intercalate (writeEntries es) ++ "\x7d"
  | .object _ t _ => quote (t.getD "")

def writeAll : List Value → List String
  | [] => []
  | v :: vs => write v :: writeAll vs

def writeEntries : List (Value × Value) → List String
  | [] => []
  | (k, v) :: es => (quote (k.text.getD "") ++ ":" ++ write v) :: writeEntries es

end

end GadgetCircuits.Json
