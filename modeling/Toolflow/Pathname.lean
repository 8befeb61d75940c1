/-! Pathnames with `/` as separator, taken as texts.

A pathname is a head, `/` or a leading `.`, and a body of components. Empty components and `.`
in the body mean nothing, so `a//b/.` has the components `a` and `b`; `..` is a component like
any other. Operations cut and extend the text itself and keep the spelling of what they leave. -/
namespace Toolflow.Pathname

/-- A text cut at each `/`; there is always one part. -/
def cut : List Char → List (List Char)
  | [] => [[]]
  | c :: rest =>
    if c = '/' then [] :: cut rest
    else match cut rest with
      | [] => [[c]]
      | part :: parts => (c :: part) :: parts

/-- Whether a part of the body is a component. -/
def isComponent (part : List Char) : Bool := part != [] && part != ['.']

/-- The head and the body of a pathname. -/
def splitHead : List Char → List Char × List Char
  | '/' :: rest => (['/'], rest)
  | ['.'] => (['.'], [])
  | '.' :: '/' :: rest => (['.'], '/' :: rest)
  | cs => ([], cs)

/-- The components of a pathname without its head. -/
def names (path : String) : List String :=
  ((cut (splitHead path.toList).2).filter isComponent).map String.ofList

def isAbsolute (path : String) : Bool := path.toList.head? == some '/'

/-- Whether two pathnames have the same head and the same components. -/
def same (p q : String) : Bool :=
  (splitHead p.toList).1 == (splitHead q.toList).1 && names p == names q

/-- Takes the parts that are no components off a reversed list of parts. -/
def trimParts : List (List Char) → List (List Char)
  | [] => []
  | part :: parts => if isComponent part then part :: parts else trimParts parts

/-- Parts joined with `/`. -/
def joinParts : List (List Char) → List Char
  | [] => []
  | [part] => part
  | part :: parts => part ++ '/' :: joinParts parts

theorem cut_ne_nil (s : List Char) : cut s ≠ [] := by
  cases s with
  | nil => simp [cut]
  | cons c rest =>
    by_cases h : c = '/'
    · simp [cut, h]
    · cases hr : cut rest <;> simp [cut, h, hr]

/-- Head and rest are the text. -/
theorem splitHead_append (cs : List Char) : (splitHead cs).1 ++ (splitHead cs).2 = cs := by
  unfold splitHead
  split <;> rfl

/-- Cutting a text loses nothing. -/
theorem joinParts_cut (s : List Char) : joinParts (cut s) = s := by
  induction s with
  | nil => rfl
  | cons c rest ih =>
    cases hr : cut rest with
    | nil => exact absurd hr (cut_ne_nil rest)
    | cons part parts =>
      rw [hr] at ih
      by_cases h : c = '/'
      · simp [cut, h, hr, joinParts, ih]
      · cases parts <;> simp_all [cut, joinParts]

/-- The parts of the body up to the last component, last first. -/
def bodyParts (cs : List Char) : List (List Char) := trimParts (cut (splitHead cs).2).reverse

/-- The pathname without its last component: nothing for `/` and for the empty text, and the
empty text for a single component. -/
def parent? (path : String) : Option String :=
  let cs := path.toList
  let head := (splitHead cs).1
  match bodyParts cs with
  | _ :: before => some (String.ofList (head ++ joinParts (trimParts before).reverse))
  | [] => if head = ['.'] then some "" else none

/-- The last component, unless it is `..` or missing. -/
def fileName? (path : String) : Option String :=
  match bodyParts path.toList with
  | name :: _ => if name = ['.', '.'] then none else some (String.ofList name)
  | [] => none

/-- A file name cut at its last dot. A dot in front of the whole name does not count. -/
def stemAndExtension (name : List Char) : List Char × Option (List Char) :=
  let after := (name.reverse.takeWhile (· ≠ '.')).reverse
  if after.length = name.length then (name, none)
  else
    let before := name.take (name.length - after.length - 1)
    if before.isEmpty then (name, none) else (before, some after)

def fileStem? (path : String) : Option String :=
  (fileName? path).map fun name => String.ofList (stemAndExtension name.toList).1

/-- Whether a text ends in its last component, and not in a separator or in `.` behind it. -/
def endsInName (cs : List Char) : Bool :=
  match (cut (splitHead cs).2).getLast? with
  | some part => isComponent part
  | none => false

/-- The pathname with the extension of its file name replaced; an empty one is left away. The old
extension is dropped first, and a pathname without a file name stays as it is: so does one that
ends in `..` by then. -/
def withExtension (path extension : String) : String :=
  let cs := path.toList
  let text (name : List Char) (before : List (List Char)) : String :=
    String.ofList ((splitHead cs).1 ++ joinParts (name :: before).reverse)
  match bodyParts cs with
  | name :: before =>
    if name = ['.', '.'] then path
    else
      let stem := (stemAndExtension name).1
      if stem = ['.'] ∧ endsInName cs then text ['.', '.'] before
      else text (if extension.isEmpty then stem else stem ++ '.' :: extension.toList) before
  | [] => path

/-- `path` seen from `base`: an absolute one stands for itself. -/
def join (base path : String) : String :=
  if isAbsolute path then path
  else if base.isEmpty ∨ base.toList.getLast? = some '/' then base ++ path
  else base ++ "/" ++ path

/-- The pathname seen from the working directory `cwd`, without `.` and repeated separators.
`..`, a separator at the end and exactly two in front are kept. -/
def absolute (cwd path : String) : String :=
  let cs := path.toList
  let start := if ¬ isAbsolute path then cwd
    else if (cs.take 2 = ['/', '/']) ∧ (cs.drop 2).head? ≠ some '/' then "//" else "/"
  let whole := (names path).foldl join start
  if cs.getLast? = some '/' then join whole "" else whole

/-- The text of `absolute`, where an empty pathname is the working directory. -/
def absoluteText (cwd path : String) : String :=
  absolute cwd (if path.isEmpty then "." else path)

/-- The directory that holds a file. -/
def directoryOf (path : String) : String :=
  match parent? path with
  | some dir => if dir.isEmpty then "." else dir
  | none => "."

end Toolflow.Pathname
