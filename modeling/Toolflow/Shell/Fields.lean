import Toolflow.Shell.Pattern
import Toolflow.Shell.Process

/-! Fields: what a word expands to, split at the field separators and matched against pathnames. -/
namespace Toolflow.Shell

/-- A piece of an expanded word. -/
inductive Glyph where
  /-- A character; `splits` when it comes from an expansion outside quotes. -/
  | char (c : Char) (quoted splits : Bool)
  /-- There is a field here, even if nothing is in it. -/
  | present
  /-- A field ends here. -/
  | boundary
deriving Repr, DecidableEq

namespace Glyph

def ofText (quoted splits : Bool) (s : String) : List Glyph :=
  s.toList.map (char · quoted splits)

/-- The characters with their marks, all fields together. -/
def marked (gs : List Glyph) : List Marked :=
  gs.filterMap fun
    | char c quoted _ => some (c, quoted)
    | _ => none

/-- The text of a word that is not split; fields stand apart by blanks. -/
def text (gs : List Glyph) : String :=
  String.ofList (gs.filterMap fun
    | char c _ _ => some c
    | boundary => some ' '
    | present => none)

/-- A field under construction, in reverse, and whether there is one. -/
structure Open where
  chars : List Marked := []
  isThere : Bool := false
  /-- Whether blanks have just ended a field. -/
  afterBlank : Bool := false

/-- Splits glyphs at the separators. Blank separators come in runs; each other one ends a field. -/
def fields (separators : List Char) : Open → List Glyph → List (List Marked)
  | o, [] => if o.isThere then [o.chars.reverse] else []
  | o, present :: gs => fields separators { o with isThere := true, afterBlank := false } gs
  | o, boundary :: gs =>
    if o.isThere then o.chars.reverse :: fields separators {} gs else fields separators {} gs
  | o, char c quoted splits :: gs =>
    if splits ∧ ¬ quoted ∧ c ∈ separators then
      if c = ' ' ∨ c = '\t' ∨ c = '\n' then
        if o.isThere then o.chars.reverse :: fields separators { afterBlank := true } gs
        else fields separators o gs
      else if o.afterBlank then fields separators {} gs
      else o.chars.reverse :: fields separators {} gs
    else fields separators { chars := (c, quoted) :: o.chars, isThere := true } gs

end Glyph

/-- The parts of a pattern between separators, and whether it starts at the root. -/
def patternParts (p : List Marked) : List (List Marked) :=
  p.foldr (fun m parts =>
    if m.1 = '/' then [] :: parts
    else match parts with
      | [] => [[m]]
      | part :: rest => (m :: part) :: rest) [[]]

/-- The texts a pathname pattern stands for, given the text in front of it. Each round takes a
part. -/
def pathsMatching (disk : Disk) : String → List (List Marked) → List String
  | before, [] => if disk.exists? before then [before] else []
  | before, part :: rest =>
    let extend (name : String) : String :=
      if rest.isEmpty then before ++ name else before ++ name ++ "/"
    if Pattern.isSpecial part then
      let dir := if before.isEmpty then "." else before
      match disk.find dir with
      | .ok (place, .directory) =>
        let names := (disk.namesIn place).filter fun n =>
          Pattern.matchesText part n.toList
            && (n.toList.head? != some '.' || part.head?.map (·.1) == some '.')
        names.flatMap fun n => pathsMatching disk (extend n) rest
      | _ => []
    else pathsMatching disk (extend (String.ofList (part.map (·.1)))) rest

/-- What a field stands for: the pathnames that match it, or its own text. -/
def fieldTexts (disk : Disk) (field : List Marked) : List String :=
  let own := String.ofList (field.map (·.1))
  if Pattern.isSpecial field then
    match pathsMatching disk "" (patternParts field) with
    | [] => [own]
    | paths => paths
  else [own]

end Toolflow.Shell
