import GadgetCircuits.Number.Basic
import GadgetCircuits.Text.Cut
import GadgetCircuits.Text.Digit

/-!
Reading integers and fractions from text. Digits of every script count, blanks around a numeral are
dropped, and a single underscore may stand between two digits.
-/

namespace GadgetCircuits.Numeral

open Text

inductive Failure where
  | malformed
  | zeroDenominator
  deriving DecidableEq, Repr

def more : List Char → List Nat × List Char
  | [] => ([], [])
  | c :: rest =>
    match digit? c with
    | some d => (d :: (more rest).1, (more rest).2)
    | none =>
      match rest with
      | e :: tail =>
        match c == '_', digit? e with
        | true, some d => (d :: (more tail).1, (more tail).2)
        | _, _ => ([], c :: rest)
      | [] => ([], c :: rest)

def group? : List Char → Option (List Nat × List Char)
  | [] => none
  | c :: rest => (digit? c).map fun d => (d :: (more rest).1, (more rest).2)

def sign : List Char → Bool × List Char
  | '-' :: rest => (true, rest)
  | '+' :: rest => (false, rest)
  | cs => (false, cs)

def signed (negative : Bool) (n : Nat) : Int :=
  if negative then -(n : Int) else n

def int? (s : List Char) : Option Int :=
  let (negative, body) := sign (trim s)
  match group? body with
  | some (ds, []) => some (signed negative (digitsValue ds))
  | _ => none

/-- The exponent part `e±n` of a decimal, and the rest. No exponent counts as zero. -/
def exponent? : List Char → Option (Int × List Char)
  | c :: rest =>
    if c == 'e' || c == 'E' then
      let (negative, body) := sign rest
      (group? body).map fun (ds, r) => (signed negative (digitsValue ds), r)
    else some (0, c :: rest)
  | [] => some (0, [])

/-- The fractional part after a point, and the rest. No point counts as no digits. -/
def places : List Char → List Nat × List Char
  | '.' :: rest => (group? rest).getD ([], rest)
  | cs => ([], cs)

def scale (n : Int) (e : Int) : Rat :=
  if 0 ≤ e then ((n * pow10 e.toNat : Int) : Rat) else mkRat n (pow10 (-e).toNat)

/-- A fraction `n/d` or a decimal `n.f e x`, each with an optional sign, and the rest. -/
def unsignedFraction (negative : Bool) (body : List Char) :
    Except Failure (Rat × List Char) :=
  let (whole, rest) := (group? body).getD ([], body)
  match rest with
  | '/' :: below =>
    match whole.isEmpty, group? below with
    | false, some (ds, r) =>
      if digitsValue ds = 0 then
        if (trimLeft r).isEmpty then .error .zeroDenominator else .error .malformed
      else .ok (mkRat (signed negative (digitsValue whole)) (digitsValue ds), r)
    | _, _ => .error .malformed
  | _ =>
    let (part, afterPart) := places rest
    if whole.isEmpty && part.isEmpty then .error .malformed
    else
      match exponent? afterPart with
      | some (e, r) =>
        .ok (scale (signed negative (digitsValue (whole ++ part))) (e - part.length), r)
      | none => .error .malformed

def fraction (s : List Char) : Except Failure Rat :=
  let (negative, body) := sign (trimLeft s)
  match unsignedFraction negative body with
  | .error e => .error e
  | .ok (q, rest) => if (trimLeft rest).isEmpty then .ok q else .error .malformed

end GadgetCircuits.Numeral
