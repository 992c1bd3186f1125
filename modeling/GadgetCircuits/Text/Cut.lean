/-!
White space, cutting texts at separators, and dropping spaces around them.
-/

namespace GadgetCircuits.Text

/-- White space in the sense of the Unicode bidirectional classes `WS`, `B` and `S`, and the
category `Zs`. -/
def isBlank (c : Char) : Bool :=
  let n := c.toNat
  (0x9 ≤ n && n ≤ 0xd) || (0x1c ≤ n && n ≤ 0x20) || n == 0x85 || n == 0xa0 || n == 0x1680 ||
    (0x2000 ≤ n && n ≤ 0x200a) || n == 0x2028 || n == 0x2029 || n == 0x202f || n == 0x205f ||
    n == 0x3000

def trimLeft (s : List Char) : List Char :=
  s.dropWhile isBlank

def trimRight (s : List Char) : List Char :=
  (s.reverse.dropWhile isBlank).reverse

def trim (s : List Char) : List Char :=
  trimRight (trimLeft s)

/-- The pieces between the occurrences of a nonempty separator, found from left to right. `skip`
characters are passed over, and `acc` is the piece so far, backwards. -/
def splitFrom (sep : List Char) : Nat → List Char → List Char → List (List Char)
  | _, acc, [] => [acc.reverse]
  | skip + 1, acc, _ :: cs => splitFrom sep skip acc cs
  | 0, acc, c :: cs =>
    if sep.isPrefixOf (c :: cs) then acc.reverse :: splitFrom sep (sep.length - 1) [] cs
    else splitFrom sep 0 (c :: acc) cs

def split (sep s : List Char) : List (List Char) :=
  splitFrom sep 0 [] s

def join (sep : List Char) (pieces : List (List Char)) : List Char :=
  sep.intercalate pieces

def dropSpaces (s : List Char) : List Char :=
  s.dropWhile (· == ' ')

def dropSpacesRight (s : List Char) : List Char :=
  (dropSpaces s.reverse).reverse

def squeeze (before after : Bool) (sep s : List Char) : List Char :=
  let pieces := split sep s
  join sep (pieces.mapIdx fun i p =>
    let p := if after && i != 0 then dropSpaces p else p
    if before && i + 1 != pieces.length then dropSpacesRight p else p)

def collapse : List Char → List Char
  | [] => []
  | c :: cs =>
    match c == ' ', cs with
    | true, ' ' :: _ => collapse cs
    | _, _ => c :: collapse cs

/-- The parts before and after the last occurrence of a separator that leaves both nonempty. -/
def cutLast? (sep s : List Char) : Option (List Char × List Char) :=
  (List.range s.length).reverse.findSome? fun i =>
    let rest := s.drop i
    let after := rest.drop sep.length
    if i != 0 && sep.isPrefixOf rest && !after.isEmpty then some (s.take i, after) else none

def after? (start s : List Char) : Option (List Char) :=
  if start.isPrefixOf s then some (s.drop start.length) else none

def before? (ending s : List Char) : Option (List Char) :=
  (after? ending.reverse s.reverse).map List.reverse

def nonempty? (s : List Char) : Option (List Char) :=
  if s.isEmpty then none else some s

end GadgetCircuits.Text
