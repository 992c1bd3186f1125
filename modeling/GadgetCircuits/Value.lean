import GadgetCircuits.Number.Decimal
import GadgetCircuits.Text.Printable

/-!
Loosely typed values: what an argument is before it has been checked. They are printed in error
messages, compared across number types, and otherwise only taken apart by the checks.
-/

namespace GadgetCircuits

/-- A value of any type. An `object` is one of this library's own things in a place where a plain
value is expected: its class, its text as it is shown, and its text inside a list, where it has
them. -/
inductive Value where
  | null
  | bool (b : Bool)
  | int (n : Int)
  | float (x : Float)
  | str (s : String)
  | list (items : List Value)
  | tuple (items : List Value)
  | dict (entries : List (Value × Value))
  | object (cls : String) (shown inner : Option String)
  deriving Inhabited

namespace Value

def ofNat (n : Nat) : Value :=
  .int n

def ofNats (ns : List Nat) : Value :=
  .list (ns.map ofNat)

def pair (a b : Int) : Value :=
  .tuple [.int a, .int b]

def boolText (b : Bool) : String :=
  if b then "True" else "False"

def tupleText : List String → String
  | [t] => "(" ++ t ++ ",)"
  | ts => "(" ++ ", ".intercalate ts ++ ")"

mutual

/-- The text of a value as it would be written in a program: strings are quoted. `none` if a part of
it has no text. -/
def literal : Value → Option String
  | .null => some "None"
  | .bool b => some (boolText b)
  | .int n => some (toString n)
  | .float x => some (Decimal.free x)
  | .str s => some (Text.quoted s)
  | .list items => (literals items).map fun ts => "[" ++ ", ".intercalate ts ++ "]"
  | .tuple items => (literals items).map tupleText
  | .dict entries => (entryLiterals entries).map fun ts => "\x7b" ++ ", ".intercalate ts ++ "\x7d"
  | .object _ _ inner => inner

def literals : List Value → Option (List String)
  | [] => some []
  | v :: vs =>
    match literal v, literals vs with
    | some t, some ts => some (t :: ts)
    | _, _ => none

def entryLiterals : List (Value × Value) → Option (List String)
  | [] => some []
  | (k, v) :: rest =>
    match literal k, literal v, entryLiterals rest with
    | some a, some b, some ts => some ((a ++ ": " ++ b) :: ts)
    | _, _, _ => none

end

def text : Value → Option String
  | .str s => some s
  | .object _ shown _ => shown
  | v => v.literal

def className : Value → String
  | .null => "NoneType"
  | .bool _ => "bool"
  | .int _ => "int"
  | .float _ => "float"
  | .str _ => "str"
  | .list _ => "list"
  | .tuple _ => "tuple"
  | .dict _ => "dict"
  | .object cls _ _ => cls

def classText (v : Value) : String :=
  "<class '" ++ v.className ++ "'>"

def int? : Value → Option Int
  | .int n => some n
  | .bool b => some (if b then 1 else 0)
  | _ => none

def rat? : Value → Option Rat
  | .int n => some n
  | .bool b => some (if b then 1 else 0)
  | .float x => Binary.toRat? x
  | _ => none

def isNumber : Value → Bool
  | .int _ | .bool _ | .float _ => true
  | _ => false

def items? : Value → Option (List Value)
  | .list items => some items
  | .tuple items => some items
  | _ => none

def sequence? : Value → Option (List Value)
  | .list items => some items
  | .tuple items => some items
  | .str s => some (s.toList.map fun c => .str (String.ofList [c]))
  | _ => none

def collection? : Value → Option (List Value)
  | .dict entries => some (entries.map Prod.fst)
  | v => v.sequence?

def truthy : Value → Bool
  | .null => false
  | .bool b => b
  | .int n => n != 0
  | .float x => !(x == 0.0)
  | .str s => !s.isEmpty
  | .list items => !items.isEmpty
  | .tuple items => !items.isEmpty
  | .dict entries => !entries.isEmpty
  | .object _ _ _ => true

mutual

/-- Equality of values: numbers by value across number types, sequences of one kind item by item,
dictionaries up to order. Objects are never equal to anything. -/
def same : Value → Value → Bool
  | .null, .null => true
  | .str a, .str b => a == b
  | .list xs, .list ys => sameItems xs ys
  | .tuple xs, .tuple ys => sameItems xs ys
  | .dict xs, .dict ys => xs.length == ys.length && sameEntries xs ys
  | .float x, b =>
    match b with
    | .float y => x == y
    | _ =>
      match Binary.toRat? x, b.int? with
      | some p, some n => p == n
      | _, _ => false
  | a, .float y =>
    match a.int?, Binary.toRat? y with
    | some n, some q => (n : Rat) == q
    | _, _ => false
  | a, b =>
    match a.int?, b.int? with
    | some m, some n => m == n
    | _, _ => false

def sameItems : List Value → List Value → Bool
  | [], [] => true
  | x :: xs, y :: ys => same x y && sameItems xs ys
  | _, _ => false

def sameEntries : List (Value × Value) → List (Value × Value) → Bool
  | [], _ => true
  | (k, v) :: rest, ys => sameLookup k v ys && sameEntries rest ys

def sameLookup (k v : Value) : List (Value × Value) → Bool
  | [] => false
  | (k', v') :: rest => (same k k' && same v v') || sameLookup k v rest

end

def get? (entries : List (Value × Value)) (key : String) : Option Value :=
  (entries.find? fun e => match e.1 with | .str s => s == key | _ => false).map Prod.snd

end Value

end GadgetCircuits
