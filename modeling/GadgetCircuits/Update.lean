import GadgetCircuits.Error

/-!
Steps on a state that can fail midway. What a step has done before its failure stays done.
-/

namespace GadgetCircuits

abbrev Update (σ α : Type) := ExceptT Error (StateM σ) α

namespace Update

variable {σ τ α : Type}

def check (x : Except Error α) : Update σ α :=
  match x with
  | .ok a => pure a
  | .error e => throw e

def replace (f : σ → Except Error σ) : Update σ Unit := do
  set (← check (f (← get)))

def runFrom (x : Update σ α) (s : σ) : Except Error α × σ :=
  Id.run (StateT.run (ExceptT.run x) s)

def within (part : σ → τ) (put : τ → σ → σ) (x : Update τ α) : Update σ α := do
  let s ← get
  let (r, t) := x.runFrom (part s)
  set (put t s)
  check r

end Update

end GadgetCircuits
