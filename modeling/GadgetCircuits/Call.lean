import GadgetCircuits.Error

/-!
Matching the arguments of a call to parameters: positions first, then names, then defaults.
-/

namespace GadgetCircuits

/-- A parameter. One with a default may be left out, and one that is `nameOnly` has no position. -/
structure Param (α : Type) where
  name : String
  fallback : Option α := none
  nameOnly : Bool := false

namespace Param

variable {α : Type}

def required (name : String) : Param α := { name }

def optional (name : String) (v : α) : Param α := { name, fallback := some v }

def named (name : String) (v : α) : Param α := { name, fallback := some v, nameOnly := true }

def lookup (named : List (String × α)) (name : String) : Option α :=
  (named.find? fun e => e.1 == name).map Prod.snd

/-- The values of the parameters in their order. Every argument has to find its parameter, none may
be given twice, and what is left out needs a default. -/
def assign : List (Param α) → List α → List (String × α) → Except Error (List α)
  | [], [], _ => .ok []
  | [], _ :: _, _ => .error .arguments
  | p :: ps, args, given =>
    match p.nameOnly, args, lookup given p.name with
    | false, _ :: _, some _ => .error .arguments
    | false, a :: rest, none => (assign ps rest given).map (a :: ·)
    | _, _, some v => (assign ps args given).map (v :: ·)
    | _, _, none =>
      match p.fallback with
      | some v => (assign ps args given).map (v :: ·)
      | none => .error .arguments

def bind (params : List (Param α)) (args : List α) (given : List (String × α)) :
    Except Error (List α) :=
  if given.all fun e => params.any fun p => p.name == e.1 then assign params args given
  else .error .arguments

end Param

def Value.textOr : Value → String
  | .str s => s
  | _ => ""

def Value.named : Value → List (String × Value)
  | .dict es => es.map fun e => (e.1.textOr, e.2)
  | _ => []

end GadgetCircuits
