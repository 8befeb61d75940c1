import Toolflow.Shell.Arithmetic
import Toolflow.Shell.Process

/-! Conditions of the `test` command. -/
namespace Toolflow.Shell.Test

/-- Conditions on one operand. -/
def unary? (disk : Disk) (op : String) (s : String) : Option Bool :=
  match op with
  | "-n" => some (!s.isEmpty)
  | "-z" => some s.isEmpty
  | "-e" | "-r" | "-w" => some (disk.exists? s)
  | "-f" => some (disk.isFile s)
  | "-d" => some (disk.isDirectory s)
  | "-x" =>
    match disk.lookup? s with
    | some (.file _ executable) => some executable
    | some .directory => some true
    | none => some false
  | "-s" =>
    match disk.lookup? s with
    | some (.file content _) => some (content.size != 0)
    | some .directory => some true
    | none => some false
  | "-h" | "-L" | "-p" | "-S" | "-b" | "-c" | "-g" | "-u" | "-k" | "-t" => some false
  | _ => none

def comparisons : List (String × (Int → Int → Bool)) :=
  [("-eq", (· == ·)), ("-ne", (· != ·)), ("-lt", (· < ·)), ("-le", (· ≤ ·)),
    ("-gt", (fun a b => b < a)), ("-ge", (fun a b => b ≤ a))]

/-- A condition cannot be decided. -/
inductive Mistake where
  | number (text : String)
  | unexpected (operator : String)
  /-- Nothing stands behind an operator. -/
  | operandExpected (operator : String)
deriving Repr, DecidableEq

def Mistake.message : Mistake → String
  | .number text => s!"Illegal number: {text}"
  | .unexpected operator => s!"{operator}: unexpected operator"
  | .operandExpected operator => s!"{operator}: argument expected"

def number (s : String) : Except Mistake Int :=
  match s.trimAscii.toString.toInt? with
  | some n => .ok n
  | none => .error (.number s)

/-- Conditions on two operands. -/
def binary? (disk : Disk) (s op t : String) : Option (Except Mistake Bool) :=
  match op with
  | "=" | "==" => some (.ok (s == t))
  | "!=" => some (.ok (s != t))
  | "<" => some (.ok (decide (s < t)))
  | ">" => some (.ok (decide (t < s)))
  | "-ef" => some (.ok ((disk.canonical? s).isSome && disk.canonical? s == disk.canonical? t))
  | "-nt" => some (.ok (disk.exists? s && !disk.exists? t))
  | "-ot" => some (.ok (!disk.exists? s && disk.exists? t))
  | _ =>
    (comparisons.lookup op).map fun compare => do
      let a ← number s
      let b ← number t
      return compare a b

def isBinary (disk : Disk) (op : String) : Bool := (binary? disk "0" op "0").isSome

abbrev Reader := StateT (List String) (Except Mistake)

mutual

/-- Conditions joined by `-o`. -/
def alternatives (disk : Disk) : Nat → Reader Bool
  | 0 => return false
  | fuel + 1 => do
    let a ← conjunction disk fuel
    match ← get with
    | "-o" :: rest =>
      set rest
      let b ← alternatives disk fuel
      return a || b
    | _ => return a

/-- Conditions joined by `-a`. -/
def conjunction (disk : Disk) : Nat → Reader Bool
  | 0 => return false
  | fuel + 1 => do
    let a ← single disk fuel
    match ← get with
    | "-a" :: rest =>
      set rest
      let b ← conjunction disk fuel
      return a && b
    | _ => return a

def single (disk : Disk) : Nat → Reader Bool
  | 0 => return false
  | fuel + 1 => do
    let words ← get
    match words with
    | s :: op :: t :: rest =>
      match binary? disk s op t with
      | some result =>
        set rest
        return ← (result : Except Mistake Bool)
      | none => operand disk fuel
    | _ => operand disk fuel

def operand (disk : Disk) : Nat → Reader Bool
  | 0 => return false
  | fuel + 1 => do
    match ← get with
    | [] => return false
    | "!" :: s :: rest =>
      set (s :: rest)
      return !(← single disk fuel)
    | "(" :: s :: rest =>
      set (s :: rest)
      let a ← alternatives disk fuel
      match ← get with
      | ")" :: rest =>
        set rest
        return a
      | _ => throw (.unexpected "(")
    | op :: s :: rest =>
      match unary? disk op s with
      | some b =>
        set rest
        return b
      | none =>
        set (s :: rest)
        return !op.isEmpty
    | [s] =>
      set ([] : List String)
      return !s.isEmpty

end

/-- Decides a condition. -/
def decide? (disk : Disk) (words : List String) : Except Mistake Bool := do
  match words with
  | [] => return false
  | [s] => return !s.isEmpty
  | _ =>
    let (b, rest) ← (alternatives disk (6 * (words.length + 1))).run words
    match rest with
    | [] => return b
    | [w] => throw (if isBinary disk w then .operandExpected w else .unexpected w)
    | w :: _ => throw (.unexpected w)

/-- Decides a condition and answers 0 where it holds. -/
def command (complainAs : String) (words : List String) : Run Nat := do
  match decide? (← Run.disk) words with
  | .ok true => return 0
  | .ok false => return 1
  | .error mistake =>
    Run.complain s!"{complainAs}: {mistake.message}\n"
    return 2

end Toolflow.Shell.Test
