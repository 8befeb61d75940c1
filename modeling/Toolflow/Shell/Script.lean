/-! Shell scripts as trees.

A word is a list of parts, which are expanded, split into fields and matched against pathnames only
when the command that holds the word runs. -/
namespace Toolflow.Shell

/-- When the word of `${name…}` stands in for the parameter, and what else happens then. -/
inductive Fallback where
  /-- `-`: the word replaces a missing value. -/
  | replace
  /-- `=`: the word is also assigned. -/
  | assign
  /-- `?`: the word is a complaint, and the shell stops. -/
  | complain
  /-- `+`: the word replaces a value that is there. -/
  | alternative
deriving Repr, DecidableEq

/-- How a file descriptor is redirected. -/
inductive Direction where
  | read
  | write
  | append
  | readWrite
  | duplicate
deriving Repr, DecidableEq

mutual

inductive Part where
  /-- Text outside quotes, which can hold patterns. -/
  | plain (text : String)
  /-- Text that means itself. -/
  | literal (text : String)
  /-- Parts between double quotes. -/
  | quoted (parts : List Part)
  | parameter (name : String)
  | length (name : String)
  /-- A word in place of a parameter that is unset or, with a colon, empty. -/
  | fallback (name : String) (kind : Fallback) (colon : Bool) (word : List Part)
  /-- A parameter without the shortest or longest start or end that matches a pattern. -/
  | cut (name : String) (atEnd longest : Bool) (pattern : List Part)
  | output (script : Script)
  | arithmetic (parts : List Part)

inductive Redirection where
  | connected (descriptor : Nat) (direction : Direction) (target : List Part)
  | document (descriptor : Nat) (content : List Part)

inductive Script where
  | simple (line : Nat) (assignments : List (String × List Part)) (words : List (List Part))
      (redirections : List Redirection)
  | redirected (line : Nat) (body : Script) (redirections : List Redirection)
  | subshell (body : Script)
  | conditional (condition consequence alternative : Script)
  /-- Repeats the body while the condition ends as asked for. -/
  | loop (whileTrue : Bool) (condition body : Script)
  /-- Runs the body for each word; without words, for each argument of the shell. -/
  | each (name : String) (words : Option (List (List Part))) (body : Script)
  | cases (subject : List Part) (clauses : List (List (List Part) × Script))
  | define (name : String) (body : Script)
  | sequence (first second : Script)
  | both (first second : Script)
  | either (first second : Script)
  | not (body : Script)
  | pipe (first second : Script)
  /-- Runs the body on its own; how it ends does not count. -/
  | background (body : Script)
  | nothing

end

instance : Inhabited Script := ⟨.nothing⟩

end Toolflow.Shell
