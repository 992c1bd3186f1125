import GadgetCircuits.Number.Numeral
import GadgetCircuits.Qasm.Statement

/-!
Reading OpenQASM programs line by line. Every line is one statement, a comment, or the start of a
gate definition, which is passed over.
-/

namespace GadgetCircuits.Qasm

open Text

def integer (s : List Char) : Except Error Int :=
  match Numeral.int? s with
  | some n => .ok n
  | none => .error .unreadable

def quotient (n d : Int) : Except Error Angle :=
  if d = 0 then .error .divisionByZero else .ok ⟨(n : Rat) / (d : Rat)⟩

def fraction (s : List Char) : Except Error Angle :=
  match Numeral.fraction s with
  | .ok q => .ok ⟨q⟩
  | .error .malformed => .error .unreadable
  | .error .zeroDenominator => .error .divisionByZero

def part? (s : List Char) : Option (List Char) :=
  if s.contains '\n' then none else nonempty? s

/-- The four notations with π, and zero; spaces around the signs and around π do not count. -/
def squeezed (s : List Char) : List Char :=
  squeeze true true "pi".toList <| squeeze true true "/".toList <|
    squeeze true true "*".toList (trim s)

def readAngle (s : List Char) : Except Error Angle :=
  let s := squeezed s
  if s == "pi".toList then .ok Angle.pi
  else if s == "0".toList then .ok Angle.zero
  else
    match (after? "pi/".toList s).bind part? with
    | some d => do quotient 1 (← integer d)
    | none =>
      match (before? "*pi".toList s).bind part? with
      | some q => fraction q
      | none =>
        match if s.contains '\n' then none else cutLast? "*pi/".toList s with
        | some (n, d) => do
          let n ← integer n
          quotient n (← integer d)
        | none => .error (.qasm (.angleNotation (String.ofList s)))

/-- A line with a single space between words and none around the other separators. -/
def tidied (line : List Char) : List Char :=
  let around := [",", "==", "->"].foldl (fun l sep => squeeze true true sep.toList l) (trim line)
  let line := squeeze false true ['('] around
  let line := squeeze true false [')'] line
  let line := squeeze false true ['['] line
  collapse (squeeze true false [']'] line)

def words (line : List Char) : List (List Char) :=
  (split [' '] line).filter fun w => !w.isEmpty

/-- A name of ASCII letters and digits with a nonempty part in brackets. -/
def bracketed? (opening closing : Char) (word : List Char) : Option (List Char × List Char) := do
  let name ← nonempty? (word.takeWhile Char.isAlphanum)
  let inner ← after? [opening] (word.dropWhile Char.isAlphanum)
  let inner ← nonempty? (← before? [closing] inner)
  return (name, inner)

def expect {α : Type} (x : Option α) : Except Error α :=
  match x with
  | some a => .ok a
  | none => .error .unreadable

abbrev Registers := List Register

def Registers.find? (rs : Registers) (nature : Nature) (name : List Char) : Option Register :=
  List.find? (fun r => r.nature == nature && r.name == String.ofList name) rs

def readRegister (nature : Nature) (word : List Char) : Except Error Register := do
  let (name, size) ← expect (bracketed? '[' ']' word)
  let n ← integer size
  if n ≤ 0 then throw (.qasm (.registerSize (.int n)))
  return ⟨nature, String.ofList name, ⟨n.toNat, false⟩⟩

def positionOf (n : Int) : Except Error Count :=
  if n < 0 then .error (.qasm (.position (.int n))) else .ok ⟨n.toNat, false⟩

def readTarget (rs : Registers) (natures : List Nature) (word : List Char) :
    Except Error Target := do
  match natures.findSome? fun k => rs.find? k word with
  | some r => return ⟨r.nature, r, none⟩
  | none =>
    let (name, pos) ← expect (bracketed? '[' ']' word)
    let r ← expect (natures.findSome? fun k => rs.find? k name)
    return ⟨r.nature, r, some (← positionOf (← integer pos))⟩

def readTargets (rs : Registers) (natures : List Nature) (word : List Char) :
    Except Error (List Target) :=
  (split [','] word).mapM (readTarget rs natures)

def readAngles (s : List Char) : Except Error (List Angle) :=
  (split [','] s).mapM readAngle

def operand (words : List (List Char)) : Except Error (List Char) :=
  match words with
  | [_, w] => .ok w
  | _ => .error .unreadable

def readVersion : List (List Char) → Except Error Statement
  | w :: _ =>
    if w == "2.0".toList then .ok .version
    else .error (.qasm (.version (.str (String.ofList w))))
  | [] => .error .outOfRange

def readLoad (word : List Char) : Except Error Statement := do
  let inner ← expect (after? ['"'] word)
  let file ← expect ((before? ['"'] inner).bind nonempty?)
  return .load (String.ofList file)

def readU (rs : Registers) (head word : List Char) : Except Error Statement := do
  let inner ← expect (after? "U(".toList head)
  let inner ← expect ((before? [')'] inner).bind nonempty?)
  match split [','] inner with
  | [a, b, c] =>
    let a ← readAngle a
    let b ← readAngle b
    let c ← readAngle c
    return .u a b c (← readTarget rs [.quantum] word)
  | _ => throw .unreadable

def readCX (rs : Registers) (word : List Char) : Except Error Statement := do
  match split [','] word with
  | [c, t] =>
    let c ← readTarget rs [.quantum] c
    Statement.cx? c (← readTarget rs [.quantum] t)
  | _ => throw .unreadable

def readMeasure (rs : Registers) (word : List Char) : Except Error Statement := do
  match split "->".toList word with
  | [q, b] =>
    let q ← readTarget rs [.quantum] q
    Statement.measure? q (← readTarget rs [.classical] b)
  | _ => throw .unreadable

/-- A gate with its angles in parentheses; a head of any other shape is the name as a whole. -/
def readGate (rs : Registers) (head word : List Char) : Except Error Statement := do
  let (name, angles) ←
    match bracketed? '(' ')' head with
    | some (name, inner) => do pure (name, ← readAngles inner)
    | none => pure (head, [])
  Statement.gate? (String.ofList name) (← readTargets rs [.quantum, .classical] word) angles

def readCondition (rs : Registers) (head : List Char) : Except Error (Register × Int) := do
  let inner ← expect ((after? "if(".toList head).bind (before? [')']))
  let (name, value) ← expect (cutLast? "==".toList inner)
  match rs.find? .classical name with
  | none => throw .noKey
  | some r => return (r, ← integer value)

def guard (r : Register) (value : Int) (body : Statement) : Except Error Statement :=
  if 0 ≤ value && value < pow2 r.size.val then
    .ok (.guarded r ⟨value.toNat, false⟩ body)
  else .error (.qasm (.condition (.int value) (.str (r.text.getD ""))))

def readDeclaration (rs : Registers) (nature : Nature) (words : List (List Char)) :
    Except Error (Statement × Registers) := do
  let r ← readRegister nature (← operand words)
  if rs.any fun s => s.name == r.name then throw .unreadable
  return (.declare r, rs ++ [r])

def readStatement (rs : Registers) : List (List Char) → Except Error (Statement × Registers)
  | [] => .error .outOfRange
  | head :: rest =>
    let keep (x : Except Error Statement) : Except Error (Statement × Registers) :=
      x.map fun s => (s, rs)
    let second := operand (head :: rest)
    if head == "OPENQASM".toList then keep (readVersion rest)
    else if head == "qreg".toList then readDeclaration rs .quantum (head :: rest)
    else if head == "creg".toList then readDeclaration rs .classical (head :: rest)
    else if head == "include".toList then keep (do readLoad (← second))
    else if "U".toList.isPrefixOf head then keep (do readU rs head (← second))
    else if head == "CX".toList then keep (do readCX rs (← second))
    else if head == "measure".toList then keep (do readMeasure rs (← second))
    else if head == "reset".toList then
      keep (do return .reset (← readTarget rs [.quantum] (← second)))
    else if head == "barrier".toList then
      keep (do return .barrier (← readTargets rs [.quantum] (← second)))
    else if "if".toList.isPrefixOf head then do
      if rest.isEmpty then throw .unreadable
      let (r, value) ← readCondition rs head
      let (body, rs') ← readStatement rs rest
      return (← guard r value body, rs')
    else keep (do readGate rs head (← second))

def inLine {α : Type} (line : List Char) (x : Except Error α) : Except Error α :=
  match x with
  | .error e => if e.kind = .value then .error (.qasm (.line (String.ofList line))) else .error e
  | x => x

def readLine (acc : List Statement × Registers) (line : List Char) :
    Except Error (List Statement × Registers) :=
  let line := tidied line
  match after? "//".toList line with
  | some text => .ok (acc.1 ++ [.comment (String.ofList text)], acc.2)
  | none =>
    if line.isEmpty || "gate".toList.isPrefixOf line then .ok acc
    else
      match before? [';'] line with
      | none => .error (.qasm (.unterminated (String.ofList line)))
      | some body => do
        let (s, rs) ← inLine body (readStatement acc.2 (words body))
        return (acc.1 ++ [s], rs)

def Program.ofText (s : String) : Except Error Program := do
  let (ss, _) ← (split ['\n'] s.toList).foldlM readLine ([], [])
  Program.ofStatements ss

end GadgetCircuits.Qasm
