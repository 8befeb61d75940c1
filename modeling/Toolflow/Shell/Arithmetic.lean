import Toolflow.Table

/-! Integer expressions of the shell: 64-bit words, operators with their usual ranks, and
assignments to variables. -/
namespace Toolflow.Shell.Arithmetic

/-- A number as a signed word. -/
def word (n : Int) : Int := n.bmod (Nat.pow 2 64)

/-- The value of a digit up to `f`. -/
def digit? (c : Char) : Option Nat :=
  if c.isDigit then some (c.toNat - '0'.toNat)
  else if 'a' ≤ c ∧ c ≤ 'f' then some (c.toNat - 'a'.toNat + 10)
  else if 'A' ≤ c ∧ c ≤ 'F' then some (c.toNat - 'A'.toNat + 10)
  else none

/-- The number that digits of a base write. -/
def ofDigits? (base : Nat) (cs : List Char) : Option Nat :=
  if cs.isEmpty then none
  else cs.foldlM (fun n c => do
    let d ← digit? c
    if d < base then some (n * base + d) else none) 0

/-- A constant: hexadecimal behind `0x`, octal behind `0`, else decimal. -/
def constant? (cs : List Char) : Option Int :=
  (match cs with
    | '0' :: 'x' :: rest | '0' :: 'X' :: rest => ofDigits? 16 rest
    | '0' :: rest => if rest.isEmpty then some 0 else ofDigits? 8 rest
    | _ => ofDigits? 10 cs).map (Int.ofNat ·)

def isBlank (c : Char) : Bool := c == ' ' || c == '\t' || c == '\n'

/-- The number a text writes, with an optional sign; an empty text counts as zero. -/
def ofText? (s : String) : Option Int :=
  match s.toList.filter (!isBlank ·) with
  | [] => some 0
  | '-' :: rest => (constant? rest).map (-·)
  | '+' :: rest => constant? rest
  | cs => constant? cs

def ofBool (b : Bool) : Int := if b then 1 else 0

/-- Why an expression has no value. -/
inductive Mistake where
  | divisionByZero
  /-- It is no expression. -/
  | malformed
deriving Repr, DecidableEq

def Mistake.message : Mistake → String
  | .divisionByZero => "division by zero"
  | .malformed => "expecting primary"

/-- Binary operators with their ranks; one that begins like another stands behind it. -/
def operators : List (String × Nat) :=
  [("||", 1), ("&&", 2), ("==", 6), ("!=", 6), ("<<", 8), (">>", 8), ("<=", 7), (">=", 7),
    ("|", 3), ("^", 4), ("&", 5), ("<", 7), (">", 7), ("+", 9), ("-", 9), ("*", 10), ("/", 10),
    ("%", 10)]

/-- The result of a binary operator. -/
def combine (op : String) (a b : Int) : Except Mistake Int :=
  let shift := (b.emod 64).toNat
  match op with
  | "||" => .ok (ofBool (a != 0 || b != 0))
  | "&&" => .ok (ofBool (a != 0 && b != 0))
  | "==" => .ok (ofBool (a == b))
  | "!=" => .ok (ofBool (a != b))
  | "<=" => .ok (ofBool (a ≤ b))
  | ">=" => .ok (ofBool (b ≤ a))
  | "<" => .ok (ofBool (a < b))
  | ">" => .ok (ofBool (b < a))
  | "<<" => .ok (word (a * Int.ofNat (Nat.pow 2 shift)))
  | ">>" => .ok (a.fdiv (Int.ofNat (Nat.pow 2 shift)))
  | "|" => .ok (Int64.toInt (Int64.ofInt a ||| Int64.ofInt b))
  | "^" => .ok (Int64.toInt (Int64.ofInt a ^^^ Int64.ofInt b))
  | "&" => .ok (Int64.toInt (Int64.ofInt a &&& Int64.ofInt b))
  | "+" => .ok (word (a + b))
  | "-" => .ok (word (a - b))
  | "*" => .ok (word (a * b))
  | "/" => if b = 0 then .error .divisionByZero else .ok (word (a.tdiv b))
  | "%" => if b = 0 then .error .divisionByZero else .ok (a.tmod b)
  | _ => .error .malformed

/-- What is left of an expression, and the variables. -/
structure Cursor where
  rest : List Char
  vars : Table String

abbrev Reader := StateT Cursor (Except Mistake)

def malformed {α : Type} : Reader α := throw .malformed

/-- A value that must be there. -/
def need {α : Type} : Option α → Reader α
  | some a => return a
  | none => malformed

def skip (n : Nat) : Reader Unit := modify fun c => { c with rest := c.rest.drop n }

def skipBlanks : Reader Unit := modify fun c => { c with rest := c.rest.dropWhile isBlank }

/-- The binary operator that comes next. One with `=` behind it is an assignment, and no operand
stands in front of it. -/
def operator? (cs : List Char) : Option (String × Nat) :=
  operators.find? fun (op, _) => op.toList.isPrefixOf cs

/-- An assignment that comes next: its operator, if it has one, and its length. -/
def assignment? (cs : List Char) : Option (Option String × Nat) :=
  match cs with
  | '=' :: rest => if rest.head? = some '=' then none else some (none, 1)
  | _ =>
    (operators.find? fun (op, rank) =>
        (rank = 3 || rank = 4 || rank = 5 || 8 ≤ rank) && (op.toList ++ ['=']).isPrefixOf cs).map
      fun (op, _) => (some op, op.length + 1)

def lookup (name : String) : Reader Int := do
  need (ofText? (((← get).vars.get? name).getD ""))

def assign (name : String) (n : Int) : Reader Unit :=
  modify fun c => { c with vars := c.vars.insert name (toString n) }

mutual

/-- An expression with the conditional operator. -/
def whole : Nat → Reader Int
  | 0 => malformed
  | fuel + 1 => do
    let condition ← binary fuel 1
    skipBlanks
    match (← get).rest with
    | '?' :: _ =>
      skip 1
      let a ← whole fuel
      skipBlanks
      match (← get).rest with
      | ':' :: _ =>
        skip 1
        let b ← whole fuel
        return if condition = 0 then b else a
      | _ => malformed
    | _ => return condition

/-- An expression whose operators have at least the given rank. -/
def binary : Nat → Nat → Reader Int
  | 0, _ => malformed
  | fuel + 1, rank => do
    let first ← unary fuel
    operands fuel rank first

def operands : Nat → Nat → Int → Reader Int
  | 0, _, _ => malformed
  | fuel + 1, rank, a => do
    skipBlanks
    match operator? (← get).rest with
    | some (op, r) =>
      if r < rank then return a
      skip op.length
      let b ← binary fuel (r + 1)
      operands fuel rank (← combine op a b)
    | none => return a

def unary : Nat → Reader Int
  | 0 => malformed
  | fuel + 1 => do
    skipBlanks
    match (← get).rest with
    | '-' :: _ =>
      skip 1
      return word (-(← unary fuel))
    | '+' :: _ =>
      skip 1
      unary fuel
    | '!' :: _ =>
      skip 1
      return ofBool ((← unary fuel) == 0)
    | '~' :: _ =>
      skip 1
      return -(← unary fuel) - 1
    | '(' :: _ =>
      skip 1
      let n ← whole fuel
      skipBlanks
      match (← get).rest with
      | ')' :: _ =>
        skip 1
        return n
      | _ => malformed
    | c :: rest =>
      let text := (c :: rest).takeWhile fun c => c.isAlphanum || c == '_'
      if text.isEmpty then malformed
      skip text.length
      if c.isDigit then return word (← need (constant? text))
      let name := String.ofList text
      skipBlanks
      match assignment? (← get).rest with
      | none => lookup name
      | some (op, length) =>
        skip length
        let b ← whole fuel
        let n ← match op with
          | none => pure b
          | some op => do combine op (← lookup name) b
        assign name n
        return n
    | [] => malformed

end

/-- The value of an expression, and the variables after it. -/
def eval (text : String) (vars : Table String) : Except Mistake (Int × Table String) := do
  let cs := text.toList.dropWhile isBlank
  if cs.isEmpty then return (0, vars)
  let (n, c) ← (whole (8 * (cs.length + 2))).run { rest := cs, vars }
  if c.rest.all isBlank then return (n, c.vars) else throw .malformed

end Toolflow.Shell.Arithmetic
