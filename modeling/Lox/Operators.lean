import Lox.Machine.Fault
import Lox.Number.Remainder
import Lox.Number.Integer
/-!
# Operators on values

What the infix operators do to two values. Equality compares any two values; order,
arithmetic and `%` need numbers; `+` also joins a string and the text of any value; division and
remainder refuse a zero divisor; the bitwise operators need numbers that are 64-bit integers.
-/

namespace Lox

/-- Both operands as numbers. -/
def numbersOf (op : Token) (a b : Value) : Except RuntimeFault (Float × Float) :=
  match a, b with
  | .number x, .number y => .ok (x, y)
  | _, _ => .error (.operandsNotNumbers op a.kind b.kind)

/-- Both operands as 64-bit integers. -/
def integersOf (op : Token) (a b : Value) : Except RuntimeFault (Int × Int) := do
  let (x, y) ← numbersOf op a b
  match Number.toInt64? x, Number.toInt64? y with
  | some i, some j => .ok (i, j)
  | _, _ => .error (.operandsNotIntegers op)

/-- The divisor, unless it is zero. -/
def divisorOf (op : Token) (y : Float) : Except RuntimeFault Float :=
  if y == 0 then .error (.divisionByZero op) else .ok y

/-- Apply an infix operator, reported at its token, to two values. -/
def BinaryOp.apply (op : BinaryOp) (t : Token) (a b : Value) : Except RuntimeFault Value :=
  match op with
  | .equal => .ok (.bool (a.equals b))
  | .notEqual => .ok (.bool !(a.equals b))
  | .greater => do let (x, y) ← numbersOf t a b; .ok (.bool (x > y))
  | .greaterEqual => do let (x, y) ← numbersOf t a b; .ok (.bool (x ≥ y))
  | .less => do let (x, y) ← numbersOf t a b; .ok (.bool (x < y))
  | .lessEqual => do let (x, y) ← numbersOf t a b; .ok (.bool (x ≤ y))
  | .add =>
    match a, b with
    | .number x, .number y => .ok (.number (x + y))
    | .string s, v => .ok (.string (s ++ v.display))
    | _, _ => .error (.badAddition t a.kind b.kind)
  | .subtract => do let (x, y) ← numbersOf t a b; .ok (.number (x - y))
  | .multiply => do let (x, y) ← numbersOf t a b; .ok (.number (x * y))
  | .divide => do
    let (x, y) ← numbersOf t a b
    let y ← divisorOf t y
    .ok (.number (x / y))
  | .remainder => do
    let (x, y) ← numbersOf t a b
    let y ← divisorOf t y
    .ok (.number (Number.remainder x y))
  | .bitAnd => do let (i, j) ← integersOf t a b; .ok (.number (Float.ofInt (Number.bitAnd i j)))
  | .bitOr => do let (i, j) ← integersOf t a b; .ok (.number (Float.ofInt (Number.bitOr i j)))
  | .bitXor => do let (i, j) ← integersOf t a b; .ok (.number (Float.ofInt (Number.bitXor i j)))
  | .shiftLeft => do
    let (i, j) ← integersOf t a b
    match Number.shiftAmount? j with
    | some n => .ok (.number (Float.ofInt (Number.shiftLeft i n)))
    | none => .error (.shiftOutOfRange t)
  | .shiftRight => do
    let (i, j) ← integersOf t a b
    match Number.shiftAmount? j with
    | some n => .ok (.number (Float.ofInt (Number.shiftRight i n)))
    | none => .error (.shiftOutOfRange t)

end Lox
