import GadgetCircuits.Update

/-!
A source of chance: a linear congruential generator whose draws drop the low bits of its state. What
is drawn is a function of the seed and of the draws before.
-/

namespace GadgetCircuits

structure Draws where
  state : Nat
  deriving DecidableEq, Repr

namespace Draws

def modulus : Nat := pow2 31

def range : Nat := pow2 23

def ofSeed (seed : Int) : Draws :=
  ⟨(seed % modulus).toNat⟩

def next (d : Draws) : Nat × Draws :=
  let s := (d.state * 1103515245 + 12345) % modulus
  (s / (modulus / range), ⟨s⟩)

def draw : Update Draws Nat := do
  let (n, d) := (← get).next
  set d
  return n

def between (lo hi : Int) : Update Draws Int := do
  if hi ≤ lo then throw .emptyChoice
  return lo + (← draw) % (hi - lo)

/-- As many integers as asked for; none of them need no choice. -/
def manyBetween (lo hi : Int) (count : Nat) : Update Draws (List Int) :=
  (List.replicate count ()).mapM fun _ => between lo hi

def unit : Update Draws Float := do
  return Float.ofNat (← draw) / Float.ofNat range

def choose {α : Type} (xs : List α) : Update Draws α := do
  if xs.isEmpty then throw .emptyChoice
  match xs[(← draw) % xs.length]? with
  | some x => return x
  | none => throw .emptyChoice

def takeOut {α : Type} : Nat → List α → Update Draws (List α)
  | 0, _ => return []
  | k + 1, xs => do
    if xs.isEmpty then throw .emptyChoice
    let i := (← draw) % xs.length
    match xs[i]? with
    | some x => return x :: (← takeOut k (xs.eraseIdx i))
    | none => throw .emptyChoice

/-- A sample of distinct numbers below `n`. A sample that is too large is refused before any draw. -/
def sample (n k : Nat) : Update Draws (List Nat) := do
  if n < k then throw .emptyChoice
  takeOut k (List.range n)

end Draws

/-- Where generators come from: the seed of a generator without one of its own, and whether that
seed was chosen. If it was not, seeds are natural numbers. -/
structure Chance where
  seed : Int := 0
  chosen : Bool := false

def Chance.generator (c : Chance) (seed? : Option Int) : Except Error Draws :=
  match seed? with
  | none => .ok (.ofSeed c.seed)
  | some s => if s < 0 && !c.chosen then .error .unreadable else .ok (.ofSeed s)

end GadgetCircuits
