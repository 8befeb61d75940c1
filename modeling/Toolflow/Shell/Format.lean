import Toolflow.Shell.Arithmetic

/-! Output with escapes and conversions, as `echo` and `printf` write it.

Texts are characters on the way in and bytes on the way out, since an octal escape writes a byte
that need not be a character. -/
namespace Toolflow.Shell.Format

def bytesOf (cs : List Char) : ByteArray := (String.ofList cs).toUTF8

def byte (n : Nat) : ByteArray := ByteArray.mk #[UInt8.ofNat n]

/-- The escapes of one letter. -/
def letterEscape? : Char → Option Nat
  | 'a' => some 7
  | 'b' => some 8
  | 'f' => some 12
  | 'n' => some 10
  | 'r' => some 13
  | 't' => some 9
  | 'v' => some 11
  | '\\' => some 92
  | _ => none

/-- At most `limit` octal digits, as a number, and the rest. -/
def octal (limit : Nat) (cs : List Char) : Nat × List Char :=
  let digits := (cs.take limit).takeWhile fun c => '0' ≤ c && c ≤ '7'
  (digits.foldl (fun n c => n * 8 + (c.toNat - '0'.toNat)) 0, cs.drop digits.length)

/-- What a backslash and the text behind it write. -/
def escape (cs : List Char) : ByteArray × List Char :=
  match cs with
  | [] => (bytesOf ['\\'], [])
  | c :: rest =>
    if '0' ≤ c ∧ c ≤ '7' then
      let (n, rest) := octal 3 cs
      (byte n, rest)
    else match letterEscape? c with
      | some n => (byte n, rest)
      | none => (bytesOf ['\\', c], rest)

/-- A text with its escapes carried out, and whether `\c` ended the output. A round takes a
character, so fuel above their number is enough. -/
def expandFrom : Nat → List Char → ByteArray × Bool
  | 0, _ => (ByteArray.empty, false)
  | _ + 1, [] => (ByteArray.empty, false)
  | fuel + 1, '\\' :: rest =>
    match rest with
    | 'c' :: _ => (ByteArray.empty, true)
    | '0' :: digits =>
      let (n, rest) := octal 3 digits
      let (out, ended) := expandFrom fuel rest
      (byte n ++ out, ended)
    | _ =>
      let (b, rest) := escape rest
      let (out, ended) := expandFrom fuel rest
      (b ++ out, ended)
  | fuel + 1, c :: rest =>
    let (out, ended) := expandFrom fuel rest
    (bytesOf [c] ++ out, ended)

def expand (s : String) : ByteArray × Bool := expandFrom (s.length + 1) s.toList

/-- What `echo` writes; the option `-n` keeps the line open. -/
def echo (args : List String) : ByteArray :=
  let (newline, args) := match args with
    | "-n" :: rest => (false, rest)
    | _ => (true, args)
  let (out, ended) := expand (" ".intercalate args)
  if newline ∧ ¬ ended then out ++ "\n".toUTF8 else out

/-- How a conversion is laid out. -/
structure Layout where
  left : Bool := false
  zeros : Bool := false
  plus : Bool := false
  blank : Bool := false
  width : Nat := 0
  precision : Option Nat := none

def setFlag (l : Layout) (c : Char) : Layout :=
  match c with
  | '-' => { l with left := true }
  | '0' => { l with zeros := true }
  | '+' => { l with plus := true }
  | ' ' => { l with blank := true }
  | _ => l

/-- Fills bytes up to the width with blanks. -/
def pad (l : Layout) (b : ByteArray) : ByteArray :=
  let filling := ByteArray.mk (Array.replicate (l.width - b.size) 32)
  if l.left then b ++ filling else filling ++ b

/-- The digits of a number in a base. -/
def digits (base : Nat) (upper : Bool) (n : Nat) : String :=
  let s := String.ofList (Nat.toDigits base n)
  if upper then s.toUpper else s

/-- A number with its sign, filled up with zeros where that is asked for. -/
def number (l : Layout) (sign : String) (text : String) : ByteArray :=
  let least := match l.precision with
    | some p => p
    | none => if l.zeros && !l.left then l.width - sign.length else 0
  let zeros := String.ofList (List.replicate (least - text.length) '0')
  pad l (sign ++ zeros ++ text).toUTF8

def signed (l : Layout) (n : Int) : ByteArray :=
  let sign := if n < 0 then "-" else if l.plus then "+" else if l.blank then " " else ""
  number l sign (toString n.natAbs)

/-- The number an argument stands for: the code of the character behind a quote, or a constant. -/
def argument? (s : String) : Option Int :=
  match s.toList with
  | '\'' :: c :: _ | '"' :: c :: _ => some c.toNat
  | _ => if s.isEmpty then some 0 else Arithmetic.ofText? s

/-- What one conversion writes for an argument, whether it ends all output, and whether the
argument was no number. -/
def convert (l : Layout) (conversion : Char) (arg : String) : ByteArray × Bool × Bool :=
  let cut (b : ByteArray) : ByteArray :=
    match l.precision with
    | some p => b.extract 0 p
    | none => b
  let n? := argument? arg
  let n := n?.getD 0
  let unsigned := (n.emod (Nat.pow 2 64)).toNat
  match conversion with
  | 's' => (pad l (cut arg.toUTF8), false, false)
  | 'b' =>
    let (out, ended) := expand arg
    (pad l (cut out), ended, false)
  | 'c' => (pad l (bytesOf (arg.toList.take 1)), false, false)
  | 'd' | 'i' => (signed l n, false, n?.isNone)
  | 'u' => (number l "" (toString unsigned), false, n?.isNone)
  | 'o' => (number l "" (digits 8 false unsigned), false, n?.isNone)
  | 'x' => (number l "" (digits 16 false unsigned), false, n?.isNone)
  | 'X' => (number l "" (digits 16 true unsigned), false, n?.isNone)
  | _ => (bytesOf [conversion], false, false)

/-- What has been written so far, and what is left to write it with. -/
structure Output where
  bytes : ByteArray := ByteArray.empty
  args : List String
  /-- Whether an argument has been used. -/
  used : Bool := false
  ended : Bool := false
  /-- The arguments that should have been numbers. -/
  wrong : List String := []

/-- A number in front of a text, or the next argument in the place of `*`. -/
def measure (cs : List Char) (o : Output) : Option Nat × List Char × Output :=
  match cs with
  | '*' :: rest =>
    (some (((o.args.headD "").toInt?.getD 0).toNat), rest,
      { o with args := o.args.drop 1, used := true })
  | _ =>
    let ds := cs.takeWhile Char.isDigit
    ((String.ofList ds).toNat?, cs.drop ds.length, o)

/-- Writes a format once. A round takes a character, so fuel above their number is enough. -/
def once : Nat → List Char → Output → Output
  | 0, _, o => o
  | _ + 1, [], o => o
  | fuel + 1, '\\' :: rest, o =>
    let (b, rest) := escape rest
    once fuel rest { o with bytes := o.bytes ++ b }
  | fuel + 1, '%' :: rest, o =>
    match rest with
    | '%' :: rest => once fuel rest { o with bytes := o.bytes ++ bytesOf ['%'] }
    | _ =>
      let flags := rest.takeWhile fun c => c ∈ ['-', '0', '+', ' ', '#']
      let l : Layout := flags.foldl setFlag {}
      let (width, rest, o) := measure (rest.drop flags.length) o
      let l := { l with width := width.getD 0 }
      let (precision, rest, o) := match rest with
        | '.' :: rest =>
          let (p, rest, o) := measure rest o
          (some (p.getD 0), rest, o)
        | _ => (none, rest, o)
      match rest with
      | [] => o
      | c :: rest =>
        let arg := o.args.headD ""
        let (b, ended, wrong) := convert { l with precision } c arg
        let o := { o with
          bytes := o.bytes ++ b
          args := o.args.drop 1
          used := o.used || !o.args.isEmpty
          ended
          wrong := if wrong then o.wrong ++ [arg] else o.wrong }
        if ended then o else once fuel rest o
  | fuel + 1, c :: rest, o => once fuel rest { o with bytes := o.bytes ++ bytesOf [c] }

/-- Writes a format as long as there are arguments that it uses up. -/
def repeated : Nat → String → Output → Output
  | 0, _, o => o
  | fuel + 1, format, o =>
    let o' := once (format.length + 1) format.toList { o with used := false }
    if o'.ended ∨ ¬ o'.used ∨ o'.args.isEmpty then o' else repeated fuel format o'

def printf (format : String) (args : List String) : Output :=
  repeated (args.length + 1) format { args }

end Toolflow.Shell.Format
